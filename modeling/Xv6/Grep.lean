import Mathlib.Computability.Language
import Xv6.CString

/-! The regular expressions of `grep` and the loop that cuts its input into
lines. A C string is the list of its characters before the NUL. -/

namespace Xv6.Grep

open CString Computability List

/-- `matchstar`, with the call of `matchhere` on the rest of the expression as `here`. -/
def matchstar (c : BitVec 8) (here : Buffer → Bool) : Buffer → Bool
  | [] => here []
  | t :: text => here (t :: text) || ((t == c || c == char '.') && matchstar c here text)

def matchhere : Buffer → Buffer → Bool
  | [], _ => true
  | [c], text =>
    if c = char '$' then text.isEmpty
    else text.head?.any fun t => c == char '.' || c == t
  | c :: d :: re, text =>
    if d = char '*' then matchstar c (matchhere re) text
    else match text with
      | [] => false
      | t :: text => (c == char '.' || c == t) && matchhere (d :: re) text

-- The loop of `match`, which also tries the end of the text.
def matchfrom (re : Buffer) : Buffer → Bool
  | [] => matchhere re []
  | t :: text => matchhere re (t :: text) || matchfrom re text

def «match» (re text : Buffer) : Bool :=
  if re.head? = some (char '^') then matchhere re.tail text else matchfrom re text

inductive Item where
  | one (c : BitVec 8)
  | star (c : BitVec 8)
  | eot
  deriving DecidableEq

/-- The items of an expression, read from left to right. -/
def items : Buffer → List Item
  | [] => []
  | [c] => if c = char '$' then [.eot] else [.one c]
  | c :: d :: re => if d = char '*' then .star c :: items re else .one c :: items (d :: re)

def single (c : BitVec 8) : Language (BitVec 8) := {w | ∃ t, w = [t] ∧ (c = char '.' ∨ t = c)}

def Item.language : Item → Language (BitVec 8)
  | .one c => single c
  | .star c => (single c)∗
  | .eot => 1

/-- The word `w`, in a text that goes on with `post`, is matched by the items. -/
def Matches (is : List Item) (w post : Buffer) : Prop :=
  w ∈ (is.map Item.language).prod ∧ (Item.eot ∈ is → post = [])

theorem matches_one {c : BitVec 8} {is : List Item} {w post : Buffer} :
    Matches (.one c :: is) w post ↔
      ∃ t v, w = t :: v ∧ (c = char '.' ∨ t = c) ∧ Matches is v post := by
  simp only [Matches, map_cons, prod_cons, Item.language, Language.mem_mul,
    mem_cons, reduceCtorEq, false_or]
  constructor
  · rintro ⟨⟨_, ⟨t, rfl, ht⟩, v, hv, rfl⟩, heot⟩
    exact ⟨t, v, rfl, ht, hv, heot⟩
  · rintro ⟨t, v, rfl, ht, hv, heot⟩
    exact ⟨⟨[t], ⟨t, rfl, ht⟩, v, hv, rfl⟩, heot⟩

theorem matches_star {c : BitVec 8} {is : List Item} {w post : Buffer} :
    Matches (.star c :: is) w post ↔ ∃ u ∈ (single c)∗, ∃ v, u ++ v = w ∧ Matches is v post := by
  simp only [Matches, map_cons, prod_cons, Item.language, Language.mem_mul,
    mem_cons, reduceCtorEq, false_or]
  constructor
  · rintro ⟨⟨u, hu, v, hv, rfl⟩, heot⟩
    exact ⟨u, hu, v, rfl, hv, heot⟩
  · rintro ⟨u, hu, v, rfl, hv, heot⟩
    exact ⟨⟨u, hu, v, hv, rfl⟩, heot⟩

theorem mem_star_cons {c t : BitVec 8} {u : Buffer} :
    t :: u ∈ (single c)∗ ↔ (c = char '.' ∨ t = c) ∧ u ∈ (single c)∗ := by
  rw [← Language.one_add_self_mul_kstar_eq_kstar, Language.mem_add, Language.mem_mul]
  constructor
  · rintro (h | ⟨_, ⟨t', rfl, ht⟩, v, hv, h⟩)
    · cases h
    · obtain ⟨rfl, rfl⟩ := cons.inj h
      exact ⟨ht, by rwa [Language.one_add_self_mul_kstar_eq_kstar]⟩
  · rintro ⟨ht, hu⟩
    rw [Language.one_add_self_mul_kstar_eq_kstar] at hu
    exact .inr ⟨[t], ⟨t, rfl, ht⟩, u, hu, rfl⟩

-- The loop of `matchstar` tries every number of occurrences, the shortest first.
theorem matchstar_iff (c : BitVec 8) (here : Buffer → Bool) (text : Buffer) :
    matchstar c here text = true ↔
      ∃ u ∈ (single c)∗, ∃ rest, text = u ++ rest ∧ here rest = true := by
  induction text with
  | nil =>
    rw [matchstar]
    constructor
    · intro h
      exact ⟨[], Language.nil_mem_kstar _, [], rfl, h⟩
    · rintro ⟨u, -, rest, htext, h⟩
      rwa [(append_eq_nil_iff.mp htext.symm).2] at h
  | cons t text ih =>
    simp only [matchstar, Bool.or_eq_true, Bool.and_eq_true, beq_iff_eq, ih]
    constructor
    · rintro (h | ⟨hc, u, hu, rest, rfl, h⟩)
      · exact ⟨[], Language.nil_mem_kstar _, t :: text, rfl, h⟩
      · exact ⟨t :: u, mem_star_cons.mpr ⟨hc.symm, hu⟩, rest, rfl, h⟩
    · rintro ⟨u, hu, rest, htext, h⟩
      cases u with
      | nil => exact .inl (by rwa [htext])
      | cons t' u =>
        obtain ⟨rfl, rfl⟩ := cons.inj htext
        obtain ⟨hc, hu⟩ := mem_star_cons.mp hu
        exact .inr ⟨hc.symm, u, hu, rest, rfl, h⟩

theorem matchhere_iff (re text : Buffer) : matchhere re text = true ↔
    ∃ w post, text = w ++ post ∧ Matches (items re) w post := by
  induction re using items.induct generalizing text with
  | case1 =>
    have hnil : Matches [] [] text := ⟨rfl, nofun⟩
    simp only [matchhere, items, true_iff]
    exact ⟨[], text, rfl, hnil⟩
  | case2 =>
    have heot (w post : Buffer) : Matches [.eot] w post ↔ w = [] ∧ post = [] := by
      simp [Matches, Item.language, Language.mem_one]
    simp [matchhere, items, heot]
  | case3 c hc =>
    have hnil (v post : Buffer) : Matches [] v post ↔ v = [] := by
      simp [Matches, Language.mem_one]
    cases text with
    | nil => simp [matchhere, items, hc, matches_one]
    | cons t text =>
      simp only [matchhere, if_neg hc, head?_cons, Option.any_some, Bool.or_eq_true,
        beq_iff_eq, items, matches_one, hnil]
      constructor
      · intro h
        exact ⟨[t], text, rfl, t, [], rfl, h.imp id Eq.symm, rfl⟩
      · rintro ⟨_, post, htext, t', v, rfl, h, rfl⟩
        obtain ⟨rfl, -⟩ := cons.inj htext
        exact h.imp id Eq.symm
  | case4 c re ih =>
    simp only [matchhere, if_true, items, matchstar_iff, ih, matches_star]
    constructor
    · rintro ⟨u, hu, _, rfl, v, post, rfl, h⟩
      exact ⟨u ++ v, post, (append_assoc u v post).symm, u, hu, v, rfl, h⟩
    · rintro ⟨_, post, rfl, u, hu, v, rfl, h⟩
      exact ⟨u, hu, v ++ post, append_assoc u v post, v, post, rfl, h⟩
  | case5 c d re hd ih =>
    cases text with
    | nil => simp [matchhere, items, hd, matches_one]
    | cons t text =>
      simp only [matchhere, if_neg hd, items, matches_one, Bool.and_eq_true, Bool.or_eq_true,
        beq_iff_eq, ih]
      constructor
      · rintro ⟨hc, w, post, rfl, h⟩
        exact ⟨t :: w, post, rfl, t, w, rfl, hc.imp id Eq.symm, h⟩
      · rintro ⟨_, post, htext, t', w, rfl, hc, h⟩
        obtain ⟨rfl, rfl⟩ := cons.inj htext
        exact ⟨hc.imp id Eq.symm, w, post, rfl, h⟩

theorem matchfrom_iff (re text : Buffer) :
    matchfrom re text = true ↔ ∃ pre rest, text = pre ++ rest ∧ matchhere re rest = true := by
  induction text with
  | nil =>
    rw [matchfrom]
    constructor
    · intro h
      exact ⟨[], [], rfl, h⟩
    · rintro ⟨pre, rest, htext, h⟩
      rwa [(append_eq_nil_iff.mp htext.symm).2] at h
  | cons t text ih =>
    rw [matchfrom, Bool.or_eq_true, ih]
    constructor
    · rintro (h | ⟨pre, rest, rfl, h⟩)
      · exact ⟨[], t :: text, rfl, h⟩
      · exact ⟨t :: pre, rest, rfl, h⟩
    · rintro ⟨pre, rest, htext, h⟩
      cases pre with
      | nil => exact .inl (by rwa [htext])
      | cons t' pre => exact .inr ⟨pre, rest, (cons.inj htext).2, h⟩

/-- `match` finds exactly the words of the expression's items: from the start of the text
where the expression begins with `^`, anywhere otherwise, and up to its end after `$`. -/
theorem match_iff (re text : Buffer) : «match» re text = true ↔
    ∃ pre w post, text = pre ++ w ++ post ∧
      if re.head? = some (char '^') then pre = [] ∧ Matches (items re.tail) w post
      else Matches (items re) w post := by
  unfold «match»
  split_ifs with hre
  · rw [matchhere_iff]
    constructor
    · rintro ⟨w, post, rfl, h⟩
      exact ⟨[], w, post, rfl, rfl, h⟩
    · rintro ⟨_, w, post, rfl, rfl, h⟩
      exact ⟨w, post, rfl, h⟩
  · simp only [matchfrom_iff, matchhere_iff]
    constructor
    · rintro ⟨pre, _, rfl, w, post, rfl, h⟩
      exact ⟨pre, w, post, (append_assoc pre w post).symm, h⟩
    · rintro ⟨pre, w, post, rfl, h⟩
      exact ⟨pre, w ++ post, append_assoc pre w post, w, post, rfl, h⟩

/-- `strchr`, as the characters before the first `c` and those behind it. -/
def strchr (c : BitVec 8) : Buffer → Option (Buffer × Buffer)
  | [] => none
  | a :: s =>
    if a = 0#8 then none
    else if a = c then some ([], s)
    else (strchr c s).map fun (before, behind) => (a :: before, behind)

theorem strchr_append {c : BitVec 8} {l : Buffer} (hc : c ≠ 0#8) (hl : c ∉ l)
    (hnul : 0#8 ∉ l) (s : Buffer) : strchr c (l ++ c :: s) = some (l, s) := by
  induction l with
  | nil => simp [strchr, hc]
  | cons a l ih =>
    simp only [mem_cons, not_or] at hl hnul
    simp [strchr, ih hl.2 hnul.2, Ne.symm hl.1, Ne.symm hnul.1]

theorem strchr_none {c : BitVec 8} {s : Buffer} (hs : c ∉ s) : strchr c s = none := by
  induction s with
  | nil => rfl
  | cons a s ih =>
    simp only [mem_cons, not_or] at hs
    simp [strchr, ih hs.2, Ne.symm hs.1]

theorem length_of_strchr {c : BitVec 8} {s l t : Buffer} (h : strchr c s = some (l, t)) :
    t.length < s.length := by
  induction s generalizing l with
  | nil => cases h
  | cons a s ih =>
    simp only [strchr] at h
    split_ifs at h
    · cases h
      exact Nat.lt_succ_self _
    · obtain ⟨⟨before, behind⟩, hs, he⟩ := Option.map_eq_some_iff.mp h
      cases he
      exact (ih hs).trans (Nat.lt_succ_self _)

/-- The inner loop of `grep` from `p` on: what it writes and what is left behind the last
newline. -/
def scan (pattern p : Buffer) : Buffer × Buffer :=
  match h : strchr (char '\n') p with
  | none => ([], p)
  | some (line, q) =>
    have := length_of_strchr h
    let (out, rest) := scan pattern q
    (if «match» pattern line then line ++ char '\n' :: out else out, rest)
termination_by p.length

/-- `read`, when `avail + 1` bytes can be had without waiting. -/
def read (avail n : Nat) (input : Buffer) : Buffer × Buffer :=
  input.splitAt (min n (avail + 1))

theorem read_append (avail n : Nat) (input : Buffer) :
    (read avail n input).1 ++ (read avail n input).2 = input := by
  simp [read]

theorem read_eq_nil (avail n : Nat) (input : Buffer) :
    (read avail n input).1 = [] ↔ n = 0 ∨ input = [] := by
  simp [read]

/-- The loop of `grep` from its `i`th read on, with `buf` kept from the reads before: what
it writes and what it never reads. -/
def grepLoop (pattern : Buffer) (avail : Nat → Nat) (i : Nat) (buf input : Buffer) :
    Buffer × Buffer :=
  let chunk := read (avail i) (1024 - buf.length - 1) input
  if chunk.1.length > 0 then
    let line := scan pattern (buf ++ chunk.1)
    let next := grepLoop pattern avail (i + 1) line.2 chunk.2
    (line.1 ++ next.1, next.2)
  else ([], chunk.2)
termination_by input.length
decreasing_by
  simp only [chunk, read, List.splitAt_eq, List.length_take, List.length_drop] at *
  omega

def grep (pattern : Buffer) (avail : Nat → Nat) (input : Buffer) : Buffer × Buffer :=
  grepLoop pattern avail 0 [] input

def unlines (ls : List Buffer) : Buffer := ls.flatMap fun l => l ++ [char '\n']

structure Line (l : Buffer) : Prop where
  newline : char '\n' ∉ l
  nul : 0#8 ∉ l

theorem scan_none {pattern p : Buffer} (hp : char '\n' ∉ p) : scan pattern p = ([], p) := by
  rw [scan]
  split
  · rfl
  · next h => rw [strchr_none hp] at h; cases h

theorem scan_unlines (pattern : Buffer) {ls : List Buffer} {tail : Buffer}
    (hls : ∀ l ∈ ls, Line l) (ht : char '\n' ∉ tail) :
    scan pattern (unlines ls ++ tail) = (unlines (ls.filter («match» pattern)), tail) := by
  induction ls with
  | nil => exact scan_none ht
  | cons l ls ih =>
    obtain ⟨hl, hls⟩ := forall_mem_cons.mp hls
    have hcut : strchr (char '\n') (unlines (l :: ls) ++ tail) = some (l, unlines ls ++ tail) := by
      have := strchr_append (by decide) hl.newline hl.nul (unlines ls ++ tail)
      simpa [unlines] using this
    rw [scan]
    split
    · next h => rw [hcut] at h; cases h
    · next h =>
      rw [hcut] at h
      cases h
      rw [ih hls]
      by_cases hm : «match» pattern l = true
      · simp [hm, unlines]
      · simp [hm, unlines]

theorem prefix_line {l p rest u : Buffer} (h : p ++ rest = l ++ [char '\n'] ++ u) :
    p <+: l ∨ l ++ [char '\n'] <+: p := by
  rcases prefix_or_prefix_of_prefix ⟨rest, h⟩ ⟨u, rfl⟩ with hp | hl
  · rcases prefix_concat_iff.mp hp with rfl | hp
    · exact .inr prefix_rfl
    · exact .inl hp
  · exact .inr hl

-- What has been read of the lines is some of them and the start of the next.
theorem unlines_prefix {ls : List Buffer} {p rest : Buffer} (hls : ∀ l ∈ ls, Line l)
    (h : p ++ rest = unlines ls) : ∃ done todo tail, ls = done ++ todo ∧
      p = unlines done ++ tail ∧ char '\n' ∉ tail ∧ tail ++ rest = unlines todo := by
  induction ls generalizing p with
  | nil =>
    obtain ⟨rfl, rfl⟩ := append_eq_nil_iff.mp h
    exact ⟨[], [], [], rfl, rfl, not_mem_nil, rfl⟩
  | cons l ls ih =>
    obtain ⟨hl, hls⟩ := forall_mem_cons.mp hls
    rcases prefix_line h with hp | ⟨q, rfl⟩
    · exact ⟨[], l :: ls, p, rfl, rfl, fun hmem => hl.newline (hp.subset hmem), h⟩
    · have hrest : q ++ rest = unlines ls := by
        simpa [unlines] using h
      obtain ⟨done, todo, tail, rfl, rfl, htail, htodo⟩ := ih hls hrest
      refine ⟨l :: done, todo, tail, rfl, ?_, htail, htodo⟩
      simp [unlines]

theorem length_of_unlines {ls : List Buffer} {buf rest : Buffer} (hls : ∀ l ∈ ls, l.length ≤ 1022)
    (hbuf : char '\n' ∉ buf) (h : buf ++ rest = unlines ls) : buf.length ≤ 1022 := by
  cases ls with
  | nil => simp [(append_eq_nil_iff.mp h).1]
  | cons l ls =>
    rcases prefix_line h with hp | hl
    · exact hp.length_le.trans (hls l mem_cons_self)
    · exact absurd (hl.subset (mem_append_right l (mem_singleton_self _))) hbuf

theorem grepLoop_step {pattern : Buffer} {avail : Nat → Nat} {i : Nat} {buf input out rest : Buffer}
    (hread : 0 < (read (avail i) (1024 - buf.length - 1) input).1.length)
    (hscan : scan pattern (buf ++ (read (avail i) (1024 - buf.length - 1) input).1) = (out, rest)) :
    grepLoop pattern avail i buf input =
      Prod.map (out ++ ·) id (grepLoop pattern avail (i + 1) rest
        (read (avail i) (1024 - buf.length - 1) input).2) := by
  rw [grepLoop, if_pos hread, hscan]
  rfl

theorem grepLoop_stop {pattern : Buffer} {avail : Nat → Nat} {i : Nat} {buf input : Buffer}
    (hread : (read (avail i) (1024 - buf.length - 1) input).1 = []) :
    grepLoop pattern avail i buf input = ([], input) := by
  have happend := read_append (avail i) (1024 - buf.length - 1) input
  rw [hread, nil_append] at happend
  rw [grepLoop, hread]
  simp [happend]

theorem grepLoop_unlines (pattern : Buffer) (avail : Nat → Nat) (i : Nat) {ls : List Buffer}
    {buf input : Buffer} (hls : ∀ l ∈ ls, Line l) (hlen : ∀ l ∈ ls, l.length ≤ 1022)
    (hbuf : char '\n' ∉ buf) (h : buf ++ input = unlines ls) :
    grepLoop pattern avail i buf input = (unlines (ls.filter («match» pattern)), []) := by
  induction i, buf, input using grepLoop.induct pattern avail generalizing ls with
  | case1 i buf input chunk hpos line =>
    rename_i ih
    rw [← read_append (avail i) (1024 - buf.length - 1) input, ← append_assoc] at h
    obtain ⟨done, todo, tail, rfl, hread, htail, htodo⟩ := unlines_prefix hls h
    obtain ⟨hdone, htodoLine⟩ := forall_mem_append.mp hls
    obtain ⟨-, htodoLen⟩ := forall_mem_append.mp hlen
    have hscan : line = (unlines (done.filter («match» pattern)), tail) := by
      rw [← scan_unlines pattern hdone htail, ← hread]
    rw [hscan] at ih
    rw [grepLoop_step hpos hscan, ih htodoLine htodoLen htail htodo, filter_append]
    simp [unlines]
  | case2 i buf input chunk =>
    rename_i hpos
    have hempty : chunk.1 = [] := length_eq_zero_iff.mp (Nat.eq_zero_of_not_pos hpos)
    rw [grepLoop_stop hempty]
    -- The buffer has room, so the empty read is the end of the file.
    have hroom := length_of_unlines hlen hbuf h
    obtain hfull | rfl := (read_eq_nil _ _ _).mp hempty
    · omega
    · rw [append_nil] at h
      cases ls with
      | nil => rfl
      | cons l ls => exact absurd (h ▸ by simp [unlines]) hbuf

theorem read_fits {avail : Nat} {buf input : Buffer} (hbuf : buf.length ≤ 1023) :
    (buf ++ (read avail (1024 - buf.length - 1) input).1).length ≤ 1023 := by
  simp only [read, splitAt_eq, length_append, length_take]
  omega

-- The lines that are done were in the buffer, so the long one is still to come.
theorem grepLoop_left (pattern : Buffer) (avail : Nat → Nat) (i : Nat) {ls : List Buffer}
    {l buf input : Buffer} (hls : ∀ l ∈ ls, Line l) (hl : l ∈ ls) (hlen : 1022 < l.length)
    (hbuf : char '\n' ∉ buf) (hroom : buf.length ≤ 1023) (h : buf ++ input = unlines ls) :
    (grepLoop pattern avail i buf input).2 ≠ [] := by
  induction i, buf, input using grepLoop.induct pattern avail generalizing ls with
  | case1 i buf input chunk hpos line =>
    rename_i ih
    rw [← read_append (avail i) (1024 - buf.length - 1) input, ← append_assoc] at h
    obtain ⟨done, todo, tail, rfl, hread, htail, htodo⟩ := unlines_prefix hls h
    obtain ⟨hdone, htodoLine⟩ := forall_mem_append.mp hls
    have hscan : line = (unlines (done.filter («match» pattern)), tail) := by
      rw [← scan_unlines pattern hdone htail, ← hread]
    have hfit : (unlines done ++ tail).length ≤ 1023 := hread ▸ read_fits hroom
    rw [length_append] at hfit
    have hmem : l ∈ todo := by
      refine (mem_append.mp hl).resolve_left (fun hin => ?_)
      obtain ⟨as, bs, rfl⟩ := append_of_mem hin
      simp only [unlines, flatMap_append, flatMap_cons, length_append, length_singleton] at hfit
      omega
    rw [hscan] at ih
    rw [grepLoop_step hpos hscan]
    exact ih htodoLine hmem htail (le_trans (Nat.le_add_left _ _) hfit) htodo
  | case2 i buf input chunk =>
    rename_i hpos
    have hempty : chunk.1 = [] := length_eq_zero_iff.mp (Nat.eq_zero_of_not_pos hpos)
    rw [grepLoop_stop hempty]
    rintro rfl
    obtain ⟨as, bs, rfl⟩ := append_of_mem hl
    rw [append_nil] at h
    exact hbuf (h ▸ by simp [unlines])

/-- `grep` writes exactly the lines that match and reads all of its input, however the reads
cut it, if and only if each line and its newline fit in the 1023 bytes that a read can fill. -/
theorem grep_lines (pattern : Buffer) (avail : Nat → Nat) (ls : List Buffer)
    (hls : ∀ l ∈ ls, Line l) :
    grep pattern avail (unlines ls) = (unlines (ls.filter («match» pattern)), []) ↔
      ∀ l ∈ ls, l.length ≤ 1022 := by
  refine ⟨fun h l hl => ?_, fun hlen => grepLoop_unlines pattern avail 0 hls hlen not_mem_nil rfl⟩
  by_contra hlong
  exact grepLoop_left pattern avail 0 hls hl (by omega) not_mem_nil (by simp) rfl
    (congrArg Prod.snd h)

theorem grep_lines_two : grep [char 'b'] (fun _ => 0) (unlines [[char 'a'], [char 'b', char 'c']]) =
    (unlines [[char 'b', char 'c']], []) := by
  have hls : ∀ l ∈ [[char 'a'], [char 'b', char 'c']], Line l ∧ l.length ≤ 1022 := by
    simp only [forall_mem_cons]
    exact ⟨⟨⟨by decide, by decide⟩, by decide⟩, ⟨⟨by decide, by decide⟩, by decide⟩, nofun⟩
  exact (grep_lines _ _ _ (fun l hl => (hls l hl).1)).mpr (fun l hl => (hls l hl).2)

-- A full buffer without a newline leaves no room, and the read of no bytes ends the loop.
theorem grepLoop_full (pattern : Buffer) (avail : Nat → Nat) (i : Nat) {l buf input rest : Buffer}
    (hl : char '\n' ∉ l) (hlen : l.length = 1023) (hbuf : buf.length ≤ 1023)
    (h : buf ++ input = l ++ rest) : grepLoop pattern avail i buf input = ([], rest) := by
  induction i, buf, input using grepLoop.induct pattern avail with
  | case1 i buf input chunk hpos line =>
    rename_i ih
    rw [← read_append (avail i) (1024 - buf.length - 1) input, ← append_assoc] at h
    have hfit : (buf ++ chunk.1).length ≤ 1023 := read_fits hbuf
    have hstart : buf ++ chunk.1 <+: l :=
      prefix_of_prefix_length_le ⟨_, h⟩ ⟨rest, rfl⟩ (hlen ▸ hfit)
    have hscan : line = ([], buf ++ chunk.1) := scan_none fun hmem => hl (hstart.subset hmem)
    rw [hscan] at ih
    rw [grepLoop_step hpos hscan, ih hfit h]
    rfl
  | case2 i buf input chunk =>
    rename_i hpos
    have hempty : chunk.1 = [] := length_eq_zero_iff.mp (Nat.eq_zero_of_not_pos hpos)
    have hlength := congrArg length h
    simp only [length_append] at hlength
    have hfull : buf.length = l.length := by
      obtain hroom | rfl := (read_eq_nil _ _ _).mp hempty
      · omega
      · rw [length_nil] at hlength
        omega
    rw [grepLoop_stop hempty, (append_inj h hfull).2]

theorem grep_full (pattern : Buffer) (avail : Nat → Nat) {l : Buffer} (rest : Buffer)
    (hl : char '\n' ∉ l) (hlen : l.length = 1023) :
    grep pattern avail (l ++ rest) = ([], rest) :=
  grepLoop_full pattern avail 0 hl hlen (by simp) rfl

/-- A line of 1023 characters is neither printed nor is anything behind it read. -/
theorem grep_drops_line : ∃ l : Buffer, Line l ∧ «match» [] l = true ∧
    ∀ avail, grep [] avail (unlines [l, []]) = ([], [char '\n', char '\n']) := by
  have hl (c : BitVec 8) (hc : c ≠ char 'a') : c ∉ replicate 1023 (char 'a') := by
    rw [mem_replicate]
    exact fun h => hc h.2
  have hnewline := hl (char '\n') (by decide)
  refine ⟨replicate 1023 (char 'a'), ⟨hnewline, hl 0#8 (by decide)⟩, ?_, fun avail => ?_⟩
  · rw [replicate_succ]
    rfl
  · have hcut : unlines [replicate 1023 (char 'a'), []] =
        replicate 1023 (char 'a') ++ [char '\n', char '\n'] := by
      generalize replicate 1023 (char 'a') = l
      simp [unlines]
    rw [hcut, grep_full [] avail _ hnewline length_replicate]

end Xv6.Grep
