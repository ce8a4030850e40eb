import Xv6.Console

/-! Calls of `consoleread` on any buffer. A call that sleeps finds the buffer in any
state when it goes on. -/

namespace Xv6

namespace Console

open WrapRing List

/-- What a call finds when it has the lock: `copy k` is whether byte `k` of its
destination can be written. -/
structure Visit where
  cons : Cons
  killed : Bool
  copy : Nat → Bool

def removed (before after : Cons) : List Byte :=
  (List.range (after.r - before.r).toNat).map (fun k => before.get (before.r + BitVec.ofNat 32 k))

/-- What is returned, delivered to the user and removed from the buffer. -/
structure Result where
  ret : Int
  got : List Byte
  gone : List Byte

def callLoop (target : Nat) : Nat → List Byte → List Byte → List Visit → Option Result
  | _, _, _, [] => none
  | n, got, gone, v :: vs =>
    let x := readLoop target v.killed v.copy n v.cons got []
    let gone := gone ++ removed v.cons x.cons
    match x.outcome with
    | .asleep m => callLoop target m x.got gone vs
    | .killed => none
    | .done m => some ⟨target - m, x.got, gone⟩

def consoleread (n : Int) (vs : List Visit) : Option Result := callLoop n.toNat n.toNat [] [] vs

/-- The bytes whose turn comes while a section wants `n` more can be written. -/
def Copied (target : Nat) (copy : Nat → Bool) : Nat → Cons → Prop
  | 0, _ => True
  | n + 1, s => s.r = s.w ∨ s.get s.r = ctrl 'D' ∨ copy (target - (n + 1)) = true ∧
    (s.get s.r = newline ∨ Copied target copy n { s with r := s.r + 1 })

/-- The same of all sections of a call. -/
def CallCopied (target : Nat) : Nat → List Byte → List Visit → Prop
  | _, _, [] => True
  | n, got, v :: vs =>
    let x := readLoop target v.killed v.copy n v.cons got []
    Copied target v.copy n v.cons ∧ ∀ m, x.outcome = .asleep m → CallCopied target m x.got vs

section Calls

variable {s t : Cons} {o : Outcome} {target n : Nat} {killed : Bool} {copy : Nat → Bool}
  {got got' gone gone' : List Byte} {vs : List Visit} {x : Result}

def Cons.front (s : Cons) (k : Nat) : List Byte :=
  (List.range k).map (fun j => s.get (s.r + BitVec.ofNat 32 j))

theorem Cons.front_succ (s : Cons) (k : Nat) :
    s.front (k + 1) = s.get s.r :: ({ s with r := s.r + 1 } : Cons).front k := by
  rw [Cons.front, range_succ_eq_map, map_cons, map_map]
  congr 1
  · exact congrArg s.get (BitVec.add_zero s.r)
  · refine map_congr_left (fun j _ => congrArg s.get ?_)
    exact (add_one_ofNat s.r j).symm

theorem removed_front {k : Nat} (hk : k < 2 ^ 32) :
    removed s { s with r := s.r + BitVec.ofNat 32 k } = s.front k := by
  have hlen : (s.r + BitVec.ofNat 32 k - s.r).toNat = k := toNat_sub_of_add hk
  rw [removed, hlen, Cons.front]

/-- What a section does that wants `n` more characters: it removes those that it
delivers, and at most one more. -/
structure Took (target n : Nat) (copy : Nat → Bool) (s : Cons) (got : List Byte) (x : Section)
    (k : Nat) (more lost : List Byte) : Prop where
  le : k ≤ n
  cons : x.cons = { s with r := s.r + BitVec.ofNat 32 k }
  got : x.got = got ++ more
  front : s.front k = more ++ lost
  ending : lost = [] ∧ Copied target copy n s ∨ (∃ m, x.outcome = .done m) ∧
    (more = [] ∧ n = target ∧ lost = [ctrl 'D'] ∧ Copied target copy n s ∨
      lost ≠ [] ∧ lost ≠ [ctrl 'D'] ∧ ¬ Copied target copy n s)
  count : ∀ m, x.outcome = .asleep m ∨ x.outcome = .done m → m + more.length = n

theorem Took.nothing (hm : ∀ m, o = .asleep m ∨ o = .done m → m = n)
    (hcopied : Copied target copy n s) : Took target n copy s got ⟨o, s, got, gone⟩ 0 [] [] where
  le := Nat.zero_le n
  cons := by rw [show s.r + BitVec.ofNat 32 0 = s.r from BitVec.add_zero s.r]
  got := (append_nil got).symm
  front := rfl
  ending := .inl ⟨rfl, hcopied⟩
  count m h := hm m h

theorem readLoop_took (hn : n ≤ target) : ∃ k more lost,
    Took target n copy s got (readLoop target killed copy n s got gone) k more lost := by
  induction n generalizing s got gone with
  | zero => exact ⟨0, [], [], Took.nothing (by simp) trivial⟩
  | succ n ih =>
    rw [readLoop]
    by_cases hempty : s.r = s.w
    · rw [if_pos hempty]
      cases killed with
      | true => exact ⟨0, [], [], Took.nothing (by simp) (.inl hempty)⟩
      | false => exact ⟨0, [], [], Took.nothing (by simp) (.inl hempty)⟩
    rw [if_neg hempty]
    have hone : s.front 1 = [s.get s.r] := s.front_succ 0
    by_cases hd : s.get s.r = ctrl 'D'
    · rw [if_pos hd]
      split_ifs with hlater
      · dsimp only
        rw [BitVec.add_sub_cancel]
        exact ⟨0, [], [], Took.nothing (by simp) (.inr (.inl hd))⟩
      · exact ⟨1, [], [ctrl 'D'], by omega, rfl, (append_nil got).symm, by rw [hone, hd]; rfl,
          .inr ⟨⟨_, rfl⟩, .inl ⟨rfl, by omega, rfl, .inr (.inl hd)⟩⟩, by simp⟩
    have hcopied : Copied target copy (n + 1) s ↔ copy (target - (n + 1)) = true ∧
        (s.get s.r = newline ∨ Copied target copy n { s with r := s.r + 1 }) := by
      rw [Copied, or_iff_right hempty, or_iff_right hd]
    rw [if_neg hd]
    split_ifs with hcopy hnl
    · refine ⟨1, [], [s.get s.r], by omega, rfl, (append_nil got).symm, hone,
        .inr ⟨⟨_, rfl⟩, .inr ⟨by simp, by simpa using hd, ?_⟩⟩, by simp⟩
      simp [hcopied, hcopy]
    · rw [Bool.not_eq_false] at hcopy
      exact ⟨1, [s.get s.r], [], by omega, rfl, rfl, hone,
        .inl ⟨rfl, hcopied.mpr ⟨hcopy, .inl hnl⟩⟩, by simp⟩
    · rw [Bool.not_eq_false] at hcopy
      rw [and_iff_right hcopy, or_iff_right hnl] at hcopied
      have hrest : ∃ k more lost, Took target n copy { s with r := s.r + 1 }
          (got ++ [s.get s.r]) (readLoop target killed copy n { s with r := s.r + 1 }
            (got ++ [s.get s.r]) (gone ++ [s.get s.r])) k more lost := ih (by omega)
      obtain ⟨k, more, lost, h⟩ := hrest
      refine ⟨k + 1, s.get s.r :: more, lost, Nat.succ_le_succ h.le, ?_, ?_, ?_, ?_, ?_⟩
      · rw [h.cons]
        dsimp only
        rw [add_one_ofNat]
      · rw [h.got, append_assoc, singleton_append]
      · rw [Cons.front_succ, h.front, cons_append]
      · rw [hcopied]
        refine h.ending.imp_right (And.imp_right (fun hwhy => ?_))
        rcases hwhy with ⟨-, hne, -⟩ | hlost
        · omega
        · exact .inr hlost
      · intro m hm
        rw [length_cons, ← h.count m hm]
        omega

theorem Took.removed {k : Nat} {more lost : List Byte} {x : Section}
    (h : Took target n copy s got x k more lost) (hn : n < 2 ^ 31) :
    removed s x.cons = more ++ lost := by
  have hle := h.le
  rw [h.cons, ← h.front]
  exact removed_front (by omega)

theorem callLoop_removed (hn : n + got.length = target) (hsmall : target < 2 ^ 31)
    (hx : callLoop target n got got vs = some x) :
    (x.ret = x.got.length ∧ (x.gone = x.got ∨ x.got = [] ∧ x.gone = [ctrl 'D'])) ↔
      CallCopied target n got vs := by
  induction vs generalizing n got with
  | nil => simp [callLoop] at hx
  | cons v vs ih =>
    have hsection : ∃ k more lost, Took target n v.copy v.cons got
        (readLoop target v.killed v.copy n v.cons got []) k more lost := readLoop_took (by omega)
    obtain ⟨k, more, lost, h⟩ := hsection
    rw [callLoop, h.removed (by omega)] at hx
    rw [CallCopied]
    cases ho : (readLoop target v.killed v.copy n v.cons got []).outcome with
    | killed =>
      rw [ho] at hx
      simp at hx
    | asleep m =>
      have hcount := h.count m (.inl ho)
      rcases h.ending with ⟨rfl, hcopied⟩ | ⟨⟨_, hdone⟩, -⟩
      · rw [ho, h.got, append_nil] at hx
        have hrest := ih (by rw [length_append]; omega) hx
        simp [hrest, hcopied, h.got]
      · rw [ho] at hdone
        simp at hdone
    | done m =>
      have hcount := h.count m (.inr ho)
      rw [ho, h.got] at hx
      obtain rfl := Option.some.inj hx
      have hret : ((target : Int) - m) = (got ++ more).length := by
        rw [length_append]
        push_cast
        omega
      simp only [hret, true_and, reduceCtorEq, false_implies, implies_true, and_true]
      rcases h.ending with ⟨rfl, hcopied⟩ | ⟨-, ⟨rfl, hall, rfl, hcopied⟩ | ⟨hsome, hno, hcopied⟩⟩
      · exact iff_of_true (.inl (by rw [append_nil])) hcopied
      · have hnil : got = [] := eq_nil_of_length_eq_zero (by omega)
        exact iff_of_true (.inr (by rw [hnil]; exact ⟨rfl, rfl⟩)) hcopied
      · refine iff_of_false ?_ hcopied
        rintro (hsame | ⟨hnil, hd⟩)
        · rw [← append_assoc, append_right_eq_self] at hsame
          exact hsome hsame
        · rw [← append_assoc, hnil] at hd
          exact hno hd

end Calls

/-- The characters that a call removes are those that it delivers, but for a ^D before
them, exactly when no copy fails. -/
theorem console_input_kept (n : Int) (hn : n < 2 ^ 31) (vs : List Visit) (x : Result)
    (hx : consoleread n vs = some x) :
    (x.ret = x.got.length ∧ (x.gone = x.got ∨ x.got = [] ∧ x.gone = [ctrl 'D'])) ↔
      CallCopied n.toNat n.toNat [] vs :=
  callLoop_removed (Nat.add_zero _) (by omega) hx

def oneLine : Cons where
  buf := fun k => if k = 0 then 97 else newline
  r := 0
  w := 2
  e := 2

/-- A line that ends before the first byte that cannot be written, after a sleep. -/
theorem console_input_kept_line :
    consoleread 5 [⟨{ oneLine with r := 2 }, false, fun _ => false⟩, ⟨oneLine, false, (· < 2)⟩] =
      some ⟨2, [97, newline], [97, newline]⟩ ∧ (2 : Int) = [97, newline].length := by
  have hx : consoleread 5 [⟨{ oneLine with r := 2 }, false, fun _ => false⟩,
      ⟨oneLine, false, (· < 2)⟩] = some ⟨2, [97, newline], [97, newline]⟩ := rfl
  refine ⟨hx, ((console_input_kept 5 (by decide) _ _ hx).mpr ⟨.inl rfl, fun m hm => ?_⟩).1⟩
  obtain rfl : m = 5 := (Outcome.asleep.inj hm).symm
  exact ⟨.inr (.inr ⟨rfl, .inr (.inr (.inr ⟨rfl, .inl rfl⟩))⟩), fun _ hm => nomatch hm⟩

/-- A character is lost when the destination cannot be written, and the call returns
as it does at the end of the input. -/
theorem console_input_lost :
    consoleread 5 [⟨oneLine, false, fun _ => false⟩] = some ⟨0, [], [97]⟩ := rfl

end Console

end Xv6
