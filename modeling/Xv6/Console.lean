import Xv6.Fs
import Xv6.Machine
import Xv6.WrapRing

/-! Console input: the interrupt handler edits a line in a circular buffer that the
readers empty. The readers get what was typed, line by line. -/

namespace Xv6

namespace Console

open WrapRing Function List

def inputBufSize : Nat := 128

def ctrl (x : Char) : Byte := BitVec.ofNat 8 (x.toNat - '@'.toNat)

def newline : Byte := 10

def carriageReturn : Byte := 13

def delete : Byte := 0x7f

structure Cons where
  buf : Nat → Byte
  r : BitVec 32
  w : BitVec 32
  e : BitVec 32

def Cons.get (s : Cons) (i : BitVec 32) : Byte := s.buf (cell inputBufSize i)

def killLoop : Nat → Cons → Cons
  | 0, s => s
  | n + 1, s =>
    if s.e ≠ s.w ∧ s.get (s.e - 1) ≠ newline then killLoop n { s with e := s.e - 1 } else s

def killLine (s : Cons) : Cons := killLoop (s.e - s.w).toNat s

def store (c : Byte) (s : Cons) : Cons :=
  let c := if c = carriageReturn then newline else c
  let s := { s with
    buf := Function.update s.buf (cell inputBufSize s.e) c
    e := s.e + 1 }
  if c = newline ∨ c = ctrl 'D' ∨ s.e - s.r = BitVec.ofNat 32 inputBufSize then
    { s with w := s.e }
  else s

def consoleintr (c : Byte) (s : Cons) : Cons :=
  if c = ctrl 'P' then s
  else if c = ctrl 'U' then killLine s
  else if c = ctrl 'H' ∨ c = delete then
    if s.e ≠ s.w then { s with e := s.e - 1 } else s
  else if c ≠ 0 ∧ (s.e - s.r).toNat < inputBufSize then store c s
  else s

/-- A call of `consoleread`: the length that was asked for, what is left of it, and
the bytes that were copied to the user. -/
structure Call where
  target : Nat
  n : Nat
  got : List Byte

inductive Outcome where
  | asleep (n : Nat)
  | killed
  | done (n : Nat)

structure Section where
  outcome : Outcome
  cons : Cons
  got : List Byte
  taken : List Byte

/-- `consoleread` from where it has the lock to where it gives it up. `copy k` is
whether the copy of byte `k` of the call succeeds. -/
def readLoop (target : Nat) (killed : Bool) (copy : Nat → Bool) :
    Nat → Cons → List Byte → List Byte → Section
  | 0, s, got, taken => ⟨.done 0, s, got, taken⟩
  | n + 1, s, got, taken =>
    if s.r = s.w then
      if killed then ⟨.killed, s, got, taken⟩ else ⟨.asleep (n + 1), s, got, taken⟩
    else
      let c := s.get s.r
      let s := { s with r := s.r + 1 }
      if c = ctrl 'D' then
        if n + 1 < target then ⟨.done (n + 1), { s with r := s.r - 1 }, got, taken⟩
        else ⟨.done (n + 1), s, got, taken ++ [c]⟩
      else if copy (target - (n + 1)) = false then ⟨.done (n + 1), s, got, taken ++ [c]⟩
      else if c = newline then ⟨.done n, s, got ++ [c], taken ++ [c]⟩
      else readLoop target killed copy n s (got ++ [c]) (taken ++ [c])

/-- What was typed: the bytes that were committed, and the line that is edited. -/
structure Input where
  committed : List Byte
  line : List Byte

def Input.commit (a : Input) (line : List Byte) : Input := ⟨a.committed ++ line, []⟩

/-- The meaning of a character when `unread` committed bytes have not been read. -/
def Input.type (c : Byte) (unread : Nat) (a : Input) : Input :=
  if c = ctrl 'P' then a
  else if c = ctrl 'U' then { a with line := [] }
  else if c = ctrl 'H' ∨ c = delete then { a with line := a.line.dropLast }
  else if c = 0 ∨ unread + a.line.length = inputBufSize then a
  else
    let c := if c = carriageReturn then newline else c
    let line := a.line ++ [c]
    if c = newline ∨ c = ctrl 'D' ∨ unread + line.length = inputBufSize then a.commit line
    else { a with line }

structure Return where
  pid : Nat
  target : Nat
  got : List Byte
  ret : Int

/-- The console and the processes that sleep in `consoleread`; `input`, `taken` and
`returns` are history. -/
structure Tty where
  cons : Cons
  call : Nat → Option Call
  input : Input
  taken : List (Nat × Byte)
  returns : List Return

inductive Event where
  | intr (c : Byte)
  | read (p : Nat) (n : Int) (killed : Bool) (copy : Nat → Bool)
  | wake (p : Nat) (killed : Bool) (copy : Nat → Bool)

def Tty.unread (s : Tty) : Nat := s.input.committed.length - s.taken.length

def Outcome.call (target : Nat) (got : List Byte) : Outcome → Option Call
  | .asleep n => some ⟨target, n, got⟩
  | _ => none

def Outcome.returns (p target : Nat) (got : List Byte) : Outcome → List Return
  | .asleep _ => []
  | .killed => [⟨p, target, got, -1⟩]
  | .done n => [⟨p, target, got, target - n⟩]

def Tty.leave (s : Tty) (p target : Nat) (x : Section) : Tty :=
  { s with
    cons := x.cons
    call := Function.update s.call p (x.outcome.call target x.got)
    taken := s.taken ++ x.taken.map (fun c => (p, c))
    returns := s.returns ++ x.outcome.returns p target x.got }

def Tty.step (s : Tty) : Event → Option Tty
  | .intr c => some { s with cons := consoleintr c s.cons, input := s.input.type c s.unread }
  | .read p n killed copy =>
    if (s.call p).isNone then
      some (s.leave p n.toNat (readLoop n.toNat killed copy n.toNat s.cons [] []))
    else none
  | .wake p killed copy =>
    (s.call p).map (fun c => s.leave p c.target (readLoop c.target killed copy c.n s.cons c.got []))

def machine : Machine Tty Event := ⟨Tty.step⟩

def boot : Tty where
  cons := ⟨fun _ => 0, 0, 0, 0⟩
  call := fun _ => none
  input := ⟨[], []⟩
  taken := []
  returns := []

def Event.Copies : Event → Prop
  | .intr _ => True
  | .read _ _ _ copy => ∀ k, copy k = true
  | .wake _ _ copy => ∀ k, copy k = true

def Plain (c : Byte) : Prop := c ≠ ctrl 'D' ∧ c ≠ newline

/-- Of the bytes `front ++ back` that can be read, a call that wants `n` more takes
`front`. -/
inductive Takes (target : Nat) : Nat → Outcome → List Byte → List Byte → Prop
  | asleep (n : Nat) : Takes target (n + 1) (.asleep (n + 1)) [] []
  | killed (n : Nat) : Takes target (n + 1) .killed [] []
  | full (back : List Byte) : Takes target 0 (.done 0) [] back
  | line (n : Nat) (back : List Byte) : Takes target (n + 1) (.done n) [newline] back
  | later (n : Nat) (back : List Byte) (hn : n + 1 < target) :
      Takes target (n + 1) (.done (n + 1)) [] (ctrl 'D' :: back)
  | eof (n : Nat) (back : List Byte) (hn : target ≤ n + 1) :
      Takes target (n + 1) (.done (n + 1)) [ctrl 'D'] back
  | more {n : Nat} {o : Outcome} {front back : List Byte} (c : Byte) (hc : Plain c)
      (h : Takes target n o front back) : Takes target (n + 1) o (c :: front) back

/-- The buffer holds the unread bytes and then the line. -/
structure Cons.Holds (s : Cons) (unread line : List Byte) : Prop where
  held : WrapRing.Carries inputBufSize s.buf s.r s.e (unread ++ line)
  mark : s.w = s.r + BitVec.ofNat 32 unread.length

def text (bs : List Byte) : List Byte := bs.filter (fun c => decide (c ≠ ctrl 'D'))

section Facts

variable {s : Cons} {unread line front back got taken : List Byte} {c : Byte} {n target : Nat}
  {killed : Bool} {copy : Nat → Bool} {o : Outcome}

theorem dvd_size : inputBufSize ∣ 2 ^ 32 := by decide

theorem size_lt : inputBufSize < 2 ^ 32 := by decide

theorem Cons.Holds.fits (h : s.Holds unread line) : unread.length + line.length ≤ inputBufSize := by
  have := h.held.fits
  rwa [length_append] at this

theorem Cons.Holds.eq_iff (h : s.Holds unread line) : s.r = s.w ↔ unread = [] := by
  have hlt : unread.length < 2 ^ 32 := by
    have := h.fits
    have := size_lt
    omega
  rw [h.mark]
  constructor
  · intro he
    have h0 : s.r + BitVec.ofNat 32 0 = s.r + BitVec.ofNat 32 unread.length := by simpa using he
    have := add_inj (by decide) hlt h0
    exact eq_nil_of_length_eq_zero this.symm
  · rintro rfl
    simp

theorem Cons.Holds.end_iff (h : s.Holds unread line) : s.e = s.w ↔ line = [] := by
  have hfits := h.fits
  have hlt := size_lt
  rw [h.mark, h.held.stop, length_append]
  constructor
  · intro he
    have := add_inj (by omega) (by omega) he
    exact eq_nil_of_length_eq_zero (by omega)
  · rintro rfl
    simp

theorem Cons.Holds.length_eq (h : s.Holds unread line) :
    (s.e - s.r).toNat = unread.length + line.length := by
  rw [h.held.length_eq size_lt, length_append]

theorem Cons.Holds.pop (h : s.Holds (c :: unread) line) :
    s.get s.r = c ∧ ({ s with r := s.r + 1 } : Cons).Holds unread line := by
  refine ⟨h.held.head, h.held.pop, ?_⟩
  rw [h.mark, length_cons]
  exact (add_one_ofNat s.r unread.length).symm

theorem text_cons (hc : Plain c) (bs : List Byte) : text (c :: bs) = c :: text bs := by
  simp [text, hc.1]

variable (target killed n got taken) in
theorem readLoop_takes (hcopy : ∀ k, copy k = true) (h : s.Holds unread line) :
    ∃ front back, unread = front ++ back ∧
      (readLoop target killed copy n s got taken).cons.Holds back line ∧
      (readLoop target killed copy n s got taken).taken = taken ++ front ∧
      (readLoop target killed copy n s got taken).got = got ++ text front ∧
      Takes target n (readLoop target killed copy n s got taken).outcome front back := by
  induction n generalizing s unread got taken with
  | zero => exact ⟨[], unread, rfl, h, by simp [readLoop], by simp [readLoop, text], .full unread⟩
  | succ n ih =>
    rw [readLoop]
    cases unread with
    | nil =>
      rw [if_pos (h.eq_iff.mpr rfl)]
      cases killed with
      | true => exact ⟨[], [], rfl, h, by simp, by simp [text], .killed n⟩
      | false => exact ⟨[], [], rfl, h, by simp, by simp [text], .asleep n⟩
    | cons c unread =>
      have hne : s.r ≠ s.w := fun he => by simpa using h.eq_iff.mp he
      obtain ⟨hget, hpop⟩ := h.pop
      rw [if_neg hne]
      simp only [hget, hcopy, Bool.true_eq_false, if_false]
      by_cases hd : c = ctrl 'D'
      · subst hd
        rw [if_pos rfl]
        split_ifs with hn
        · have hback : s.r + 1 - 1 = s.r := BitVec.add_sub_cancel _ _
          refine ⟨[], ctrl 'D' :: unread, rfl, ?_, by simp, by simp [text], .later n unread hn⟩
          simpa only [hback] using h
        · exact ⟨[ctrl 'D'], unread, rfl, hpop, rfl, by simp [text],
            .eof n unread (Nat.le_of_not_lt hn)⟩
      · rw [if_neg hd]
        by_cases hl : c = newline
        · subst hl
          rw [if_pos rfl]
          exact ⟨[newline], unread, rfl, hpop, rfl, by simp [text, hd], .line n unread⟩
        · rw [if_neg hl]
          obtain ⟨front, back, hsplit, hheld, htaken, hgot, htakes⟩ := ih _ _ hpop
          refine ⟨c :: front, back, by rw [hsplit]; rfl, hheld, ?_, ?_, .more c ⟨hd, hl⟩ htakes⟩
          · rw [htaken, append_assoc, singleton_append]
          · rw [hgot, text_cons ⟨hd, hl⟩, append_assoc, singleton_append]

theorem Cons.Holds.unpush {line : List Byte} (h : s.Holds unread (line ++ [c])) :
    s.get (s.e - 1) = c ∧ ({ s with e := s.e - 1 } : Cons).Holds unread line := by
  have hheld := h.held
  rw [← append_assoc] at hheld
  exact ⟨hheld.last, hheld.unpush, h.mark⟩

theorem killLoop_clears (hline : newline ∉ line) (h : s.Holds unread line) :
    (killLoop line.length s).Holds unread [] := by
  induction line using reverseRecOn generalizing s with
  | nil => exact h
  | append_singleton line c ih =>
    have hne : s.e ≠ s.w := fun he => by simpa using h.end_iff.mp he
    obtain ⟨hget, hrest⟩ := h.unpush
    rw [mem_append, not_or, mem_singleton] at hline
    rw [length_append, length_singleton, killLoop,
      if_pos ⟨hne, by rw [hget]; exact fun hc => hline.2 hc.symm⟩]
    exact ih hline.1 hrest

theorem killLine_clears (hline : newline ∉ line) (h : s.Holds unread line) :
    (killLine s).Holds unread [] := by
  have hlen : (s.e - s.w).toNat = line.length := by
    have hfits := h.fits
    have hlt := size_lt
    rw [h.held.stop, h.mark, length_append, ← add_ofNat]
    exact toNat_sub_of_add (by omega)
  rw [killLine, hlen]
  exact killLoop_clears hline h

theorem Cons.Holds.push (h : s.Holds unread line) (hroom : unread.length + line.length < inputBufSize)
    (c : Byte) : ({ s with
      buf := update s.buf (cell inputBufSize s.e) c
      e := s.e + 1 } : Cons).Holds unread (line ++ [c]) := by
  refine ⟨?_, h.mark⟩
  rw [← append_assoc]
  exact h.held.push dvd_size (by rwa [length_append]) c

theorem Cons.Holds.commit (h : s.Holds unread line) :
    ({ s with w := s.e } : Cons).Holds (unread ++ line) [] := by
  refine ⟨by rw [append_nil]; exact h.held, ?_⟩
  exact h.held.stop

/-- What the handler does with a character is what the character means. -/
structure Typed (a b : Input) (s : Cons) (unread : List Byte) : Prop where
  clean : newline ∉ b.line
  ring : ∃ more, b.committed = a.committed ++ more ∧ s.Holds (unread ++ more) b.line

theorem Typed.same {a b : Input} (hc : b.committed = a.committed) (hl : newline ∉ b.line)
    (h : s.Holds unread b.line) : Typed a b s unread :=
  ⟨hl, [], by rw [hc, append_nil], by rwa [append_nil]⟩

theorem store_typed {a : Input} (hl : newline ∉ a.line) (h : s.Holds unread a.line)
    (hroom : unread.length + a.line.length < inputBufSize) (c : Byte) :
    Typed a (if c = newline ∨ c = ctrl 'D' ∨ unread.length + (a.line ++ [c]).length = inputBufSize
      then a.commit (a.line ++ [c]) else { a with line := a.line ++ [c] })
      (if c = newline ∨ c = ctrl 'D' ∨ s.e + 1 - s.r = BitVec.ofNat 32 inputBufSize then
        { s with
          buf := update s.buf (cell inputBufSize s.e) c
          e := s.e + 1
          w := s.e + 1 }
      else { s with
        buf := update s.buf (cell inputBufSize s.e) c
        e := s.e + 1 }) unread := by
  have hpush := h.push hroom c
  have hfull : s.e + 1 - s.r = BitVec.ofNat 32 inputBufSize ↔
      unread.length + (a.line ++ [c]).length = inputBufSize := by
    have hlen : (s.e + 1 - s.r).toNat = unread.length + (a.line ++ [c]).length := hpush.length_eq
    rw [← hlen, BitVec.toNat_eq]
    rfl
  by_cases hend : c = newline ∨ c = ctrl 'D' ∨ unread.length + (a.line ++ [c]).length = inputBufSize
  · rw [if_pos hend, if_pos (by rwa [hfull])]
    exact ⟨by simp [Input.commit], a.line ++ [c], rfl, hpush.commit⟩
  · rw [if_neg hend, if_neg (by rwa [hfull])]
    refine Typed.same rfl ?_ hpush
    rw [not_or] at hend
    simp only [mem_append, mem_singleton, not_or]
    exact ⟨hl, fun hc => hend.1 hc.symm⟩

theorem consoleintr_typed {a : Input} (hl : newline ∉ a.line) (h : s.Holds unread a.line)
    (c : Byte) : Typed a (a.type c unread.length) (consoleintr c s) unread := by
  unfold consoleintr Input.type
  by_cases hp : c = ctrl 'P'
  · rw [if_pos hp, if_pos hp]
    exact Typed.same rfl hl h
  rw [if_neg hp, if_neg hp]
  by_cases hu : c = ctrl 'U'
  · rw [if_pos hu, if_pos hu]
    exact Typed.same rfl (by simp) (killLine_clears hl h)
  rw [if_neg hu, if_neg hu]
  by_cases hh : c = ctrl 'H' ∨ c = delete
  · rw [if_pos hh, if_pos hh]
    refine Typed.same rfl (fun hm => hl (mem_of_mem_dropLast hm)) ?_
    by_cases hline : a.line = []
    · rw [if_neg (not_not_intro (h.end_iff.mpr hline))]
      simpa [hline] using h
    · rw [if_pos (fun he => hline (h.end_iff.mp he))]
      rw [← dropLast_concat_getLast hline] at h
      exact h.unpush.2
  rw [if_neg hh, if_neg hh, h.length_eq]
  have hfits := h.fits
  by_cases hdrop : c = 0 ∨ unread.length + a.line.length = inputBufSize
  · have hno : ¬ (c ≠ 0 ∧ unread.length + a.line.length < inputBufSize) := by
      rintro ⟨hc, hlt⟩
      rcases hdrop with h0 | hfull
      · exact hc h0
      · omega
    rw [if_pos hdrop, if_neg hno]
    exact Typed.same rfl hl h
  · rw [not_or] at hdrop
    have hroom : unread.length + a.line.length < inputBufSize := by omega
    rw [if_neg (not_or.mpr hdrop), if_pos (And.intro hdrop.1 hroom)]
    exact store_typed hl h hroom _

theorem Takes.length_asleep (h : Takes target n o front back) {m : Nat} (ho : o = .asleep m) :
    (text front).length + m = n ∧ newline ∉ text front := by
  induction h with
  | asleep n =>
    cases ho
    simp [text]
  | more c hc _ ih =>
    obtain ⟨hlen, hnl⟩ := ih ho
    rw [text_cons hc, length_cons, mem_cons, not_or]
    exact ⟨by omega, fun hn => hc.2 hn.symm, hnl⟩
  | killed => cases ho
  | full => cases ho
  | line => cases ho
  | later => cases ho
  | eof => cases ho

theorem Takes.length_done (h : Takes target n o front back) {m : Nat} (ho : o = .done m) :
    (text front).length + m = n := by
  induction h with
  | asleep n => cases ho
  | killed => cases ho
  | full =>
    cases ho
    rfl
  | line n back =>
    cases ho
    simp [text, newline, ctrl]
    omega
  | later n back hn =>
    cases ho
    simp [text]
  | eof n back hn =>
    cases ho
    simp [text]
  | more c hc _ ih =>
    have := ih ho
    rw [text_cons hc, length_cons]
    omega

theorem Takes.one_line (h : Takes target n o front back) : newline ∉ (text front).dropLast := by
  induction h with
  | line n back => simp [text, newline, ctrl]
  | more c hc _ ih =>
    rw [text_cons hc]
    cases htext : text _ with
    | nil => simp
    | cons b bs =>
      rw [htext] at ih
      rw [dropLast_cons_cons, mem_cons, not_or]
      exact ⟨fun hn => hc.2 hn.symm, ih⟩
  | eof n back hn => simp [text]
  | asleep => simp [text]
  | killed => simp [text]
  | full => simp [text]
  | later => simp [text]

theorem Takes.left (h : Takes target n o front back) {m : Nat} (ho : o = .done m) (hm : m ≠ 0)
    (hlt : m < target) (hl : (text front).getLast? ≠ some newline) :
    back.head? = some (ctrl 'D') := by
  induction h with
  | asleep n => cases ho
  | killed => cases ho
  | full =>
    cases ho
    exact absurd rfl hm
  | line n back => exact absurd (by simp [text, newline, ctrl]) hl
  | later n back hn => rfl
  | eof n back hn =>
    cases ho
    omega
  | more c hc _ ih =>
    refine ih ho (fun hlast => hl ?_)
    rw [text_cons hc, getLast?_cons, hlast]
    rfl

theorem Takes.at_eof {rest : List Byte} (h : Takes target n o front back)
    (hd : front ++ back = ctrl 'D' :: rest) :
    (front = [] ∧ (n = 0 ∨ n < target)) ∨ (front = [ctrl 'D'] ∧ o = .done n ∧ target ≤ n ∧ n ≠ 0) := by
  cases h with
  | asleep => simp at hd
  | killed => simp at hd
  | full => exact .inl ⟨rfl, .inl rfl⟩
  | line => simp [newline, ctrl] at hd
  | later n back hn => exact .inl ⟨rfl, .inr hn⟩
  | eof n back hn => exact .inr ⟨rfl, rfl, hn, by simp⟩
  | more c hc _ =>
    rw [cons_append, cons.injEq] at hd
    exact absurd hd.1 hc.1

end Facts

def Cons.Eof (s : Cons) : Prop := s.r ≠ s.w ∧ s.get s.r = ctrl 'D'

theorem Cons.Holds.eof_iff {s : Cons} {unread line : List Byte} (h : s.Holds unread line) :
    s.Eof ↔ unread.head? = some (ctrl 'D') := by
  cases unread with
  | nil => simp [Cons.Eof, h.eq_iff]
  | cons c unread => simp [Cons.Eof, h.eq_iff, h.pop.1]

def Tty.copied (s : Tty) (p : Nat) : List Byte := ((s.call p).map Call.got).getD []

def Tty.received (s : Tty) (p : Nat) : List Byte :=
  (s.returns.filter (fun x => decide (x.pid = p))).flatMap Return.got ++ s.copied p

def Tty.takenBy (s : Tty) (p : Nat) : List Byte :=
  (s.taken.filter (fun x => decide (x.1 = p))).map Prod.snd

structure Disciplined (s : Tty) : Prop where
  order : (s.cons.w - s.cons.r).toNat ≤ (s.cons.e - s.cons.r).toNat ∧
    (s.cons.e - s.cons.r).toNat ≤ inputBufSize
  stream : ∃ unread, s.input.committed = s.taken.map Prod.snd ++ unread ∧
    s.cons.Holds unread s.input.line
  shares : ∀ p, s.received p = text (s.takenBy p)
  lines : ∀ x ∈ s.returns, newline ∉ x.got.dropLast ∧ (x.ret = x.got.length ∨ x.ret = -1)

structure Inv (s : Tty) : Prop where
  clean : newline ∉ s.input.line
  stream : ∃ unread, s.input.committed = s.taken.map Prod.snd ++ unread ∧
    s.cons.Holds unread s.input.line
  shares : ∀ p, s.received p = text (s.takenBy p)
  lines : ∀ x ∈ s.returns, newline ∉ x.got.dropLast ∧ (x.ret = x.got.length ∨ x.ret = -1)
  calls : ∀ p c, s.call p = some c → c.got.length + c.n = c.target ∧ newline ∉ c.got

theorem Inv.disciplined {s : Tty} (h : Inv s) : Disciplined s := by
  obtain ⟨unread, hc, hh⟩ := h.stream
  refine ⟨⟨?_, ?_⟩, h.stream, h.shares, h.lines⟩
  · have hfits := hh.fits
    have hlt := size_lt
    rw [hh.length_eq, hh.mark, toNat_sub_of_add (by omega)]
    omega
  · rw [hh.length_eq]
    exact hh.fits

theorem boot_inv : Inv boot := by
  refine ⟨by simp [boot], ⟨[], rfl, Carries.nil _, rfl⟩, fun p => rfl, ?_, ?_⟩
  · intro x hx
    simp [boot] at hx
  · intro p c hc
    simp [boot] at hc

section Steps

variable {s t : Tty} {p target n : Nat} {killed : Bool} {copy : Nat → Bool} {c : Byte} {ev : Event}

theorem step_cases (h : s.step ev = some t) : (∃ c, ev = .intr c ∧
      t = { s with cons := consoleintr c s.cons, input := s.input.type c s.unread }) ∨
    (∃ p n killed copy, ev = .read p n killed copy ∧ s.call p = none ∧
      t = s.leave p n.toNat (readLoop n.toNat killed copy n.toNat s.cons [] [])) ∨
    ∃ p killed copy c, ev = .wake p killed copy ∧ s.call p = some c ∧
      t = s.leave p c.target (readLoop c.target killed copy c.n s.cons c.got []) := by
  cases ev with
  | intr c => exact .inl ⟨c, rfl, (Option.some.inj h).symm⟩
  | read p n killed copy =>
    simp only [Tty.step] at h
    by_cases hp : (s.call p).isNone
    · rw [if_pos hp] at h
      exact .inr (.inl ⟨p, n, killed, copy, rfl, Option.isNone_iff_eq_none.mp hp,
        (Option.some.inj h).symm⟩)
    · rw [if_neg hp] at h
      cases h
  | wake p killed copy =>
    obtain ⟨c, hc, ht⟩ := Option.map_eq_some_iff.mp h
    exact .inr (.inr ⟨p, killed, copy, c, rfl, hc, ht.symm⟩)

theorem Inv.intr (h : Inv s) (c : Byte) :
    Inv { s with cons := consoleintr c s.cons, input := s.input.type c s.unread } := by
  obtain ⟨unread, hc, hh⟩ := h.stream
  have hlen : s.unread = unread.length := by
    rw [Tty.unread, hc, length_append, length_map, Nat.add_sub_cancel_left]
  obtain ⟨hclean, more, hmore, hring⟩ := consoleintr_typed h.clean hh c
  rw [hlen]
  refine ⟨hclean, ⟨unread ++ more, ?_, hring⟩, h.shares, h.lines, h.calls⟩
  rw [hmore, hc, append_assoc]

theorem leave_received {x : Section} {more : List Byte} (hgot : x.got = s.copied p ++ more) :
    (s.leave p target x).received p = s.received p ++ more := by
  unfold Tty.leave Tty.received
  cases x.outcome <;> simp [Tty.copied, Outcome.call, Outcome.returns, hgot]

theorem leave_received_of_ne {x : Section} {q : Nat} (hq : q ≠ p) :
    (s.leave p target x).received q = s.received q := by
  unfold Tty.leave Tty.received
  cases x.outcome <;> simp [Tty.copied, Outcome.returns, hq, hq.symm]

theorem text_append (xs ys : List Byte) : text (xs ++ ys) = text xs ++ text ys :=
  filter_append ..

/-- What a section of `consoleread` comes to for the whole. -/
structure Sect (s t : Tty) (p target n : Nat) (unread front back : List Byte) (o : Outcome) :
    Prop where
  split : unread = front ++ back
  cons : t.cons.Holds back s.input.line
  input : t.input = s.input
  taken : t.taken = s.taken ++ front.map (fun c => (p, c))
  takes : Takes target n o front back
  mine : t.received p = s.received p ++ text front
  others : ∀ q, q ≠ p → t.received q = s.received q
  call : t.call = Function.update s.call p (o.call target (s.copied p ++ text front))
  returns : t.returns = s.returns ++ o.returns p target (s.copied p ++ text front)

variable (p target n killed) in
theorem leave_sect (hcopy : ∀ k, copy k = true) {unread : List Byte}
    (hh : s.cons.Holds unread s.input.line) :
    ∃ front back o, Sect s
      (s.leave p target (readLoop target killed copy n s.cons (s.copied p) [])) p target n
      unread front back o := by
  obtain ⟨front, back, hsplit, hcons, htaken, hgot, htakes⟩ :=
    readLoop_takes (s.copied p) [] n target killed hcopy hh
  generalize readLoop target killed copy n s.cons (s.copied p) [] = x at *
  refine ⟨front, back, x.outcome, hsplit, hcons, rfl, ?_, htakes, leave_received hgot,
    fun q hq => leave_received_of_ne hq, ?_, ?_⟩
  · rw [nil_append] at htaken
    rw [Tty.leave, htaken]
  · rw [Tty.leave, hgot]
  · rw [Tty.leave, hgot]

theorem Inv.sect {unread front back : List Byte} {o : Outcome} (h : Inv s)
    (hc : s.input.committed = s.taken.map Prod.snd ++ unread)
    (hlen : (s.copied p).length + n = target) (hnl : newline ∉ s.copied p)
    (hs : Sect s t p target n unread front back o) : Inv t := by
  have hone : newline ∉ (s.copied p ++ text front).dropLast := by
    cases htext : text front with
    | nil =>
      rw [append_nil]
      exact fun hm => hnl (mem_of_mem_dropLast hm)
    | cons b bs =>
      rw [dropLast_append_cons, mem_append, not_or, ← htext]
      exact ⟨hnl, hs.takes.one_line⟩
  constructor
  case clean => rw [hs.input]; exact h.clean
  case stream =>
    refine ⟨back, ?_, by rw [hs.input]; exact hs.cons⟩
    rw [hs.input, hs.taken, hc, hs.split]
    simp [comp_def]
  case shares =>
    intro q
    have htk : t.takenBy q = s.takenBy q ++ if q = p then front else [] := by
      by_cases hq : q = p
      · simp [Tty.takenBy, hs.taken, filter_map, comp_def, hq]
      · simp [Tty.takenBy, hs.taken, filter_map, comp_def, hq, Ne.symm hq]
    rw [htk, text_append, ← h.shares q]
    by_cases hq : q = p
    · subst hq
      rw [hs.mine, if_pos rfl]
    · rw [hs.others q hq, if_neg hq]
      simp [text]
  case lines =>
    intro x hx
    rw [hs.returns, mem_append] at hx
    rcases hx with hx | hx
    · exact h.lines x hx
    · cases o with
      | asleep m => simp [Outcome.returns] at hx
      | killed =>
        obtain rfl := mem_singleton.mp hx
        exact ⟨hone, .inr rfl⟩
      | done m =>
        obtain rfl := mem_singleton.mp hx
        refine ⟨hone, .inl ?_⟩
        have hd := hs.takes.length_done rfl
        rw [length_append]
        push_cast
        omega
  case calls =>
    intro q c hq
    rw [hs.call] at hq
    rw [update_apply] at hq
    split_ifs at hq with hqp
    · subst hqp
      cases o with
      | asleep m =>
        obtain rfl := Option.some.inj hq
        obtain ⟨hm, hm'⟩ := hs.takes.length_asleep rfl
        refine ⟨?_, ?_⟩
        · simp only [length_append]
          omega
        · simp [hnl, hm']
      | killed => cases hq
      | done m => cases hq
    · exact h.calls q c hq

/-- The event is a section of a call of process `p` for `target` bytes. -/
def Runs (s : Tty) (ev : Event) (p target : Nat) : Prop :=
  (∃ n killed copy, ev = .read p n killed copy ∧ n.toNat = target) ∨
    ∃ killed copy c, ev = .wake p killed copy ∧ s.call p = some c ∧ c.target = target

theorem step_sect (h : Inv s) (hcopy : ev.Copies) (hst : s.step ev = some t) {unread : List Byte}
    (hh : s.cons.Holds unread s.input.line) :
    (∃ c, ev = .intr c ∧
      t = { s with cons := consoleintr c s.cons, input := s.input.type c s.unread }) ∨
    ∃ p target n front back o, Runs s ev p target ∧ (s.copied p).length + n = target ∧
      newline ∉ s.copied p ∧ Sect s t p target n unread front back o := by
  obtain h1 | ⟨p, n, killed, copy, rfl, hnone, rfl⟩ | ⟨p, killed, copy, c, rfl, hsome, rfl⟩ :=
    step_cases hst
  · exact .inl h1
  · have hgot : s.copied p = [] := by simp [Tty.copied, hnone]
    obtain ⟨front, back, o, hsect⟩ :=
      leave_sect p n.toNat n.toNat killed hcopy hh
    rw [hgot] at hsect
    exact .inr ⟨p, n.toNat, n.toNat, front, back, o, .inl ⟨n, killed, copy, rfl, rfl⟩,
      by simp [hgot], by simp [hgot], hsect⟩
  · have hgot : s.copied p = c.got := by simp [Tty.copied, hsome]
    obtain ⟨front, back, o, hsect⟩ :=
      leave_sect p c.target c.n killed hcopy hh
    rw [hgot] at hsect
    obtain ⟨hlen, hnl⟩ := h.calls p c hsome
    exact .inr ⟨p, c.target, c.n, front, back, o, .inr ⟨killed, copy, c, rfl, hsome, rfl⟩,
      by rwa [hgot], by rwa [hgot], hsect⟩

theorem Inv.step (h : Inv s) (hcopy : ev.Copies) (hst : s.step ev = some t) : Inv t := by
  obtain ⟨unread, hc, hh⟩ := h.stream
  obtain ⟨c, -, rfl⟩ | ⟨p, target, n, front, back, o, -, hlen, hnl, hs⟩ := step_sect h hcopy hst hh
  · exact h.intr c
  · exact h.sect hc hlen hnl hs

theorem Runs.unique {q m : Nat} (h : Runs s ev p target) (h' : Runs s ev q m) :
    p = q ∧ target = m := by
  obtain ⟨n, k, cp, rfl, rfl⟩ | ⟨k, cp, c, rfl, hc, rfl⟩ := h
  · obtain ⟨n', k', cp', he, rfl⟩ | ⟨k', cp', c', he, -, -⟩ := h'
    · cases he
      exact ⟨rfl, rfl⟩
    · cases he
  · obtain ⟨n', k', cp', he, rfl⟩ | ⟨k', cp', c', he, hc', rfl⟩ := h'
    · cases he
    · cases he
      rw [hc] at hc'
      cases hc'
      exact ⟨rfl, rfl⟩

theorem eof_left (h : Inv s) (hcopy : ev.Copies) (hst : s.step ev = some t) {x : Return}
    (hx : t.returns = s.returns ++ [x]) (hret : x.ret ≠ -1) (hgot : x.got ≠ [])
    (hlt : x.got.length < x.target) (hl : x.got.getLast? ≠ some newline) : t.cons.Eof := by
  obtain ⟨unread, hc, hh⟩ := h.stream
  obtain ⟨c, -, rfl⟩ | ⟨p, target, n, front, back, o, -, hlen, hnl, hs⟩ := step_sect h hcopy hst hh
  · simp at hx
  rw [hs.returns] at hx
  have hx := append_cancel_left hx
  cases o with
  | asleep m => simp [Outcome.returns] at hx
  | killed =>
    obtain rfl : _ = x := by simpa [Outcome.returns] using hx
    exact absurd rfl hret
  | done m =>
    obtain rfl : _ = x := by simpa [Outcome.returns] using hx
    have hdone := hs.takes.length_done rfl
    simp only [length_append] at hlt
    have hpos : 0 < (s.copied p ++ text front).length := length_pos_iff.mpr hgot
    rw [length_append] at hpos
    rw [hs.cons.eof_iff]
    refine hs.takes.left rfl (by omega) (by omega) (fun hlast => hl ?_)
    rw [getLast?_append, hlast]
    rfl

theorem eof_kept (h : Inv s) (hcopy : ev.Copies) (hst : s.step ev = some t) (he : s.cons.Eof) :
    t.cons.Eof ∨ ∃ p target, t.returns = s.returns ++ [⟨p, target, [], 0⟩] ∧
      t.taken = s.taken ++ [(p, ctrl 'D')] := by
  obtain ⟨unread, hc, hh⟩ := h.stream
  obtain ⟨rest, rfl⟩ : ∃ rest, unread = ctrl 'D' :: rest := by
    cases unread with
    | nil => simpa using hh.eof_iff.mp he
    | cons b rest => exact ⟨rest, by simpa using hh.eof_iff.mp he⟩
  obtain ⟨c, -, rfl⟩ | ⟨p, target, n, front, back, o, -, hlen, hnl, hs⟩ := step_sect h hcopy hst hh
  · obtain ⟨-, more, -, hring⟩ := consoleintr_typed h.clean hh c
    exact .inl (hring.eof_iff.mpr rfl)
  · obtain ⟨hf, -⟩ | ⟨hf, ho, hn, -⟩ := hs.takes.at_eof hs.split.symm
    · left
      have hb := hs.split
      rw [hf, nil_append] at hb
      rw [hs.cons.eof_iff, ← hb]
      rfl
    · right
      have hnil : s.copied p = [] := eq_nil_of_length_eq_zero (by omega)
      refine ⟨p, target, ?_, by rw [hs.taken, hf]; rfl⟩
      have htn : (target : Int) - n = 0 := by omega
      rw [hs.returns, ho, hf, hnil, Outcome.returns, htn]
      rfl

theorem eof_returned (h : Inv s) (hcopy : ev.Copies) (hst : s.step ev = some t) (he : s.cons.Eof)
    (hr : Runs s ev p target) (ht : 0 < target) (hnil : s.copied p = []) :
    t.returns = s.returns ++ [⟨p, target, [], 0⟩] := by
  obtain ⟨unread, hc, hh⟩ := h.stream
  obtain ⟨c, rfl, -⟩ | ⟨p', target', n, front, back, o, hr', hlen, hnl, hs⟩ :=
    step_sect h hcopy hst hh
  · obtain ⟨_, _, _, he, -⟩ | ⟨_, _, _, he, -⟩ := hr <;> cases he
  obtain ⟨rfl, rfl⟩ := hr.unique hr'
  obtain ⟨rest, hrest⟩ : ∃ rest, front ++ back = ctrl 'D' :: rest := by
    rw [← hs.split]
    cases unread with
    | nil => simpa using hh.eof_iff.mp he
    | cons b rest => exact ⟨rest, by simpa using hh.eof_iff.mp he⟩
  rw [hnil, length_nil, Nat.zero_add] at hlen
  obtain ⟨-, hn⟩ | ⟨hf, ho, -⟩ := hs.takes.at_eof hrest
  · omega
  · have htn : (target : Int) - n = 0 := by omega
    rw [hs.returns, ho, hf, hnil, Outcome.returns, htn]
    rfl

end Steps

/-- The indices are in order, what was taken out is the beginning of what was typed
and committed, every process got what it took, a call returns one line at most, and
a ^D that ends a call is kept for the next. -/
theorem line_discipline (es : List Event) (s : Tty) (hrun : machine.exec boot es = some s)
    (hcopy : ∀ ev ∈ es, ev.Copies) :
    Disciplined s ∧ ∀ ev t, ev.Copies → s.step ev = some t →
      (∀ x, t.returns = s.returns ++ [x] → x.ret ≠ -1 → x.got ≠ [] → x.got.length < x.target →
        x.got.getLast? ≠ some newline → t.cons.Eof) ∧
      (s.cons.Eof → t.cons.Eof ∨ ∃ p target, t.returns = s.returns ++ [⟨p, target, [], 0⟩] ∧
        t.taken = s.taken ++ [(p, ctrl 'D')]) ∧
      (s.cons.Eof → ∀ p target, Runs s ev p target → 0 < target → s.copied p = [] →
        t.returns = s.returns ++ [⟨p, target, [], 0⟩]) := by
  have hinv : Inv s := Machine.inv_along (R := fun _ ev => ev.Copies)
    (fun s ev t hst hc hi => hi.step hc hst) hrun
    (Machine.along_of_forall (fun ev hev _ => hcopy ev hev)) boot_inv
  refine ⟨hinv.disciplined, fun ev t hc hst => ⟨fun x hx h1 h2 h3 h4 => ?_, fun he => ?_,
    fun he p target hr ht hnil => ?_⟩⟩
  · exact eof_left hinv hc hst hx h1 h2 h3 h4
  · exact eof_kept hinv hc hst he
  · exact eof_returned hinv hc hst he hr ht hnil

def typedLine : List Event :=
  [.intr 104, .intr 106, .intr delete, .intr 105, .intr carriageReturn,
    .read 1 2 false (fun _ => true), .read 2 9 false (fun _ => true)]

theorem line_discipline_typed : ∃ s, machine.exec boot typedLine = some s ∧
    s.returns = [⟨1, 2, [104, 105], 2⟩, ⟨2, 9, [newline], 1⟩] ∧ Disciplined s := by
  refine ⟨_, rfl, rfl, (line_discipline typedLine _ rfl (fun ev hev => ?_)).1⟩
  simp only [typedLine, mem_cons, not_mem_nil, or_false] at hev
  rcases hev with rfl | rfl | rfl | rfl | rfl | rfl | rfl <;> simp [Event.Copies]

end Console

end Xv6
