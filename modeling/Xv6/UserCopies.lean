import Xv6.UserMemory

/-! `copyin`, `copyout` and `copyinstr` byte by byte: they succeed on the ranges that
the user may access, and move these bytes and no others. -/

namespace Xv6.Vm

open Fallible List

def seen (m : View) (va : Nat) : Option (Pte × Byte) :=
  (m (va / pgsize)).map (fun c => (c.flags, c.byte (va % pgsize)))

def Allowed (m : View) (perm : Pte) (va : Nat) : Prop :=
  ∃ f b, seen m va = some (f, b) ∧ f &&& pteU ≠ 0 ∧ f &&& perm ≠ 0

/-- The user may access the address, and the page is there in the end: it was, or it
could be brought in. -/
def Served (s t : Ram) (root sz : Nat) (perm : Pte) (va : Nat) : Prop :=
  Allowed (s.view root sz) perm va ∧ ¬ Missing t root sz (va / pgsize)

/-- The byte at `va`, after `bs` has been written to `a`. -/
def patched {β : Type} (f : Byte → β → β) (a : Nat) (bs : List Byte) (va : Nat) (y : β) : β :=
  if a ≤ va ∧ va < a + bs.length then f (bs.getD (va - a) 0) y else y

def overwritten (m : View) (a : Nat) (bs : List Byte) : View := fun k =>
  (m k).map (fun c => ⟨c.flags, fun off => if off < pgsize then
    patched (fun b _ => b) a bs (k * pgsize + off) (c.byte off) else c.byte off⟩)

def replaced (x : Nat → Option (Pte × Byte)) (a : Nat) (bs : List Byte) (va : Nat) :
    Option (Pte × Byte) :=
  if a ≤ va ∧ va < a + bs.length then (x va).map (fun y => (y.1, bs.getD (va - a) 0)) else x va

def byteAt (m : View) (va : Nat) : Byte :=
  ((seen m va).map Prod.snd).getD 0

def bytesAt (m : View) (va n : Nat) : List Byte :=
  (List.range n).map (fun i => byteAt m (va + i))

def viewCopyinstr (m : View) : Nat → Nat → Nat → List Byte → Bool × List Byte
  | 0, _, _, dst => (false, dst)
  | fuel + 1, srcva, max, dst =>
    if max = 0 then (false, dst)
    else
      match userPage m srcva with
      | none => (false, dst)
      | some c =>
        let n := min (pgsize - (srcva - pgrounddown srcva)) max
        let bytes := excerpt c.byte (srcva - pgrounddown srcva) n
        if bytes.contains 0 then (true, dst ++ bytes.takeWhile (· ≠ 0) ++ [0])
        else viewCopyinstr m fuel (u64 (pgrounddown srcva + pgsize)) (max - n) (dst ++ bytes)

/-- The scan of a string goes on at each byte the user may read, up to a NUL. -/
def Unreached (s : Ram) (root sz srcva max : Nat) : Prop :=
  ∀ i < max, (∀ j < i, Allowed (s.view root sz) pteU (srcva + j) ∧
      byteAt (s.view root sz) (srcva + j) ≠ 0) →
    ¬ Missing s root sz ((srcva + i) / pgsize)

/-- What of `len` bytes lies on the page of `va`. -/
def piece (va len : Nat) : Nat := min (pgsize - (va - pgrounddown va)) len

open Classical in
noncomputable def reach (m : View) (perm : Pte) (va len : Nat) : Nat :=
  (List.range len).findIdx (fun i => ¬ Allowed m perm (va + i))

section Bytes

variable {all : Nat → Prop} {s t u : Ram} {root sz frame va k n fuel srcva dstva len a off : Nat}
  {c : Cell} {pte perm : Pte} {p : Task} {dst src bs cs : List Byte} {r : Bool}
  {m : View} {x : Nat → Option (Pte × Byte)} {E : String → Prop}

theorem userPage_div (m : View) (va : Nat) : userPage m (va / pgsize * pgsize) = userPage m va := by
  rw [userPage, userPage, Nat.mul_div_cancel _ (by decide)]

variable (sz) in
theorem userPage_of_map (hk : k * pgsize < maxva) (hv : isUser (slotOf (k * pgsize)))
    (hpte : t.map root (slotOf (k * pgsize)) = some pte) (hu : pte &&& pteU ≠ 0) :
    userPage (t.view root sz) (k * pgsize) = some ⟨pteFlags pte, (t.page (pte2pa pte)).byte⟩ := by
  rw [userPage_mul, view_of_cell hk (User.cell_of_map hv hpte), Option.filter_some, if_pos]
  rw [decide_eq_true_eq, flags_and (by decide)]
  exact hu

theorem pgrounddown_off (va : Nat) : 0 < pgsize - (va - pgrounddown va) := by
  obtain ⟨-, hle, hlt⟩ := pgrounddown_spec va
  omega

theorem patched_nil {β : Type} (f : Byte → β → β) (a va : Nat) (y : β) : patched f a [] va y = y := by
  rw [patched, if_neg (by rw [length_nil]; omega)]

theorem patched_append {β : Type} (f : Byte → β → β) (a : Nat) (bs cs : List Byte) (va : Nat) (y : β) :
    patched f (a + bs.length) cs va (patched f a bs va y) = patched f a (bs ++ cs) va y := by
  simp only [patched, length_append, getD_eq_getElem?_getD]
  by_cases hfirst : a ≤ va ∧ va < a + bs.length
  · have hsecond : ¬ (a + bs.length ≤ va ∧ va < a + bs.length + cs.length) := by omega
    have hboth : a ≤ va ∧ va < a + (bs.length + cs.length) := by omega
    rw [if_neg hsecond, if_pos hfirst, if_pos hboth, getElem?_append_left (by omega)]
  · rw [if_neg hfirst]
    by_cases hsecond : a + bs.length ≤ va ∧ va < a + bs.length + cs.length
    · have hboth : a ≤ va ∧ va < a + (bs.length + cs.length) := by omega
      have hidx : va - a - bs.length = va - (a + bs.length) := by omega
      rw [if_pos hsecond, if_pos hboth, getElem?_append_right (by omega), hidx]
    · have hboth : ¬ (a ≤ va ∧ va < a + (bs.length + cs.length)) := by omega
      rw [if_neg hsecond, if_neg hboth]

theorem replaced_nil (x : Nat → Option (Pte × Byte)) (a : Nat) : replaced x a [] = x :=
  funext (fun va => patched_nil (fun b => Option.map (fun y => (y.1, b))) a va (x va))

theorem replaced_append : replaced (replaced x a bs) (a + bs.length) cs = replaced x a (bs ++ cs) :=
  funext (fun va => patched_append (fun b => Option.map (fun y => (y.1, b))) a bs cs va (x va))

theorem overwritten_nil (m : View) (a : Nat) : overwritten m a [] = m := by
  funext k
  simp [overwritten, patched_nil]

theorem overwritten_append :
    overwritten (overwritten m a bs) (a + bs.length) cs = overwritten m a (bs ++ cs) := by
  funext k
  rw [overwritten, overwritten, overwritten, Option.map_map]
  congr 1
  funext c
  simp only [Function.comp_apply, Cell.mk.injEq, true_and]
  funext off
  split_ifs
  · exact patched_append _ a bs cs _ _
  · rfl

theorem seen_overwritten (m : View) (a : Nat) (bs : List Byte) :
    seen (overwritten m a bs) = replaced (seen m) a bs := by
  funext va
  have hoff : va % pgsize < pgsize := Nat.mod_lt _ (by decide)
  have hva : va / pgsize * pgsize + va % pgsize = va := Nat.div_add_mod' va pgsize
  simp only [seen, overwritten, replaced, Option.map_map, Function.comp_def, if_pos hoff, hva,
    patched]
  split_ifs
  · rfl
  · rfl

theorem overwritten_page (hm : m (va / pgsize) = some c)
    (hlen : bs.length ≤ pgsize - (va - pgrounddown va)) :
    Function.update m (va / pgsize) (some { c with
      byte := written c.byte (va - pgrounddown va) bs }) = overwritten m va bs := by
  obtain ⟨-, hdown, hup⟩ := pgrounddown_spec va
  funext k
  rw [overwritten, Function.update_apply]
  split_ifs with hk
  · subst hk
    rw [hm, Option.map_some]
    congr 2
    funext off
    simp only [written, patched, pgrounddown, pgsize] at *
    grind
  · have hout : ∀ off < pgsize, ¬ (va ≤ k * pgsize + off ∧ k * pgsize + off < va + bs.length) := by
      simp only [pgrounddown, pgsize] at *
      omega
    cases hcell : m k with
    | none => rfl
    | some c =>
      have hsame : ∀ off, (if off < pgsize then patched (fun b _ => b) va bs (k * pgsize + off)
          (c.byte off) else c.byte off) = c.byte off := by grind [patched]
      simp only [Option.map_some, hsame]

theorem allowed_iff : Allowed m perm va ↔
    ∃ c, m (va / pgsize) = some c ∧ c.flags &&& pteU ≠ 0 ∧ c.flags &&& perm ≠ 0 := by
  constructor
  · rintro ⟨f, b, hseen, hf⟩
    obtain ⟨c, hc, hfb⟩ := Option.map_eq_some_iff.mp hseen
    obtain ⟨rfl, -⟩ := Prod.mk.inj hfb
    exact ⟨c, hc, hf⟩
  · rintro ⟨c, hc, hf⟩
    exact ⟨c.flags, c.byte (va % pgsize), by rw [seen, hc, Option.map_some], hf⟩

theorem not_allowed (hnone : userPage m va = none) : ¬ Allowed m perm va := by
  rw [allowed_iff]
  rintro ⟨c, hc, hu, -⟩
  rw [userPage, hc, Option.filter_some, if_pos (decide_eq_true hu)] at hnone
  simp at hnone

theorem userPage_high (hva : maxva ≤ pgrounddown va) : userPage (s.view root sz) va = none := by
  rw [userPage, Ram.view, ← pgrounddown, if_neg (not_lt.mpr hva)]
  rfl

theorem allowed_overwritten : Allowed (overwritten m a bs) perm va ↔ Allowed m perm va := by
  rw [allowed_iff, allowed_iff, overwritten]
  cases m (va / pgsize) with
  | none => simp
  | some c => simp

/-- How far a copy has come: the first `n` bytes, and why not further. -/
structure Reached (root sz : Nat) (s t : Ram) (perm : Pte) (va len : Nat) (r : Bool)
    (n : Nat) : Prop where
  le : n ≤ len
  served : ∀ i < n, Served s t root sz perm (va + i)
  whole : r = true → n = len
  cut : r = false → n < len ∧ (n = 0 ∨ (va + n) % pgsize = 0) ∧
    (¬ Allowed (s.view root sz) perm (va + n) ∨
      s.failures < t.failures ∧ Missing t root sz ((va + n) / pgsize))

theorem Reached.nothing (root sz : Nat) (s t : Ram) (perm : Pte) (va : Nat) :
    Reached root sz s t perm va 0 true 0 :=
  ⟨le_rfl, fun i hi => absurd hi (Nat.not_lt_zero i), fun _ => rfl, fun h => by simp at h⟩

theorem Reached.refused (hlen : len ≠ 0) (hno : ¬ Allowed (s.view root sz) perm va ∨
    s.failures < t.failures ∧ Missing t root sz (va / pgsize)) :
    Reached root sz s t perm va len false 0 :=
  ⟨Nat.zero_le _, fun i hi => absurd hi (Nat.not_lt_zero i), fun h => by simp at h,
    fun _ => ⟨Nat.pos_of_ne_zero hlen, .inl rfl, hno⟩⟩

theorem Reached.done (h : Reached root sz s t perm va 0 r n) : r = true ∧ n = 0 := by
  refine ⟨?_, Nat.le_zero.mp h.le⟩
  cases r with
  | true => rfl
  | false => exact absurd (h.cut rfl).1 (Nat.not_lt_zero n)

theorem Reached.step {first : Nat} (hfirst : first ≤ len)
    (hallowed : ∀ a, Allowed (u.view root sz) perm a ↔ Allowed (s.view root sz) perm a)
    (hfailures : s.failures ≤ u.failures) (hserved : ∀ i < first, Served s t root sz perm (va + i))
    (haligned : first < len → (va + first) % pgsize = 0)
    (h : Reached root sz u t perm (va + first) (len - first) r n) :
    Reached root sz s t perm va len r (first + n) where
  le := by
    have hle := h.le
    omega
  served i hi := by
    by_cases hlow : i < first
    · exact hserved i hlow
    · have hrest := h.served (i - first) (by omega)
      rw [show va + first + (i - first) = va + i by omega] at hrest
      exact ⟨(hallowed _).mp hrest.1, hrest.2⟩
  whole hr := by
    have hwhole := h.whole hr
    omega
  cut hr := by
    obtain ⟨hlt, hmod, hwhy⟩ := h.cut hr
    rw [Nat.add_assoc] at hmod hwhy
    refine ⟨by omega, .inr ?_, ?_⟩
    · rcases hmod with rfl | hmod
      · exact haligned (by omega)
      · exact hmod
    · rw [hallowed] at hwhy
      exact hwhy.imp_right (And.imp_left (lt_of_le_of_lt hfailures))

theorem Reached.iff_served (h : Reached root sz s t perm va len r n) :
    r = true ↔ ∀ i < len, Served s t root sz perm (va + i) := by
  constructor
  · intro hr i hi
    exact h.served i (by rwa [h.whole hr])
  · intro hall
    cases r with
    | true => rfl
    | false =>
      obtain ⟨hlt, -, hwhy⟩ := h.cut rfl
      rcases hwhy with hno | ⟨-, hmissing⟩
      · exact absurd (hall n hlt).1 hno
      · exact absurd hmissing (hall n hlt).2

theorem Reached.iff_allowed (h : Reached root sz s t perm va len r n)
    (hfailures : t.failures = s.failures) :
    r = true ↔ ∀ i < len, Allowed (s.view root sz) perm (va + i) := by
  refine ⟨fun hr i hi => (h.iff_served.mp hr i hi).1, fun hall => ?_⟩
  cases r with
  | true => rfl
  | false =>
    obtain ⟨hlt, -, hwhy⟩ := h.cut rfl
    rcases hwhy with hno | ⟨hmore, -⟩
    · exact absurd (hall n hlt) hno
    · omega

theorem Reached.eq_reach (h : Reached root sz s t perm va len r n)
    (hf : ¬ s.failures < t.failures) :
    n = reach (s.view root sz) perm va len ∧ r = decide (n = len) := by
  have hallowed : ∀ i < n, Allowed (s.view root sz) perm (va + i) := fun i hi => (h.served i hi).1
  cases r with
  | true =>
    obtain rfl := h.whole rfl
    refine ⟨?_, by simp⟩
    have hnone : reach (s.view root sz) perm va n = (List.range n).length :=
      findIdx_eq_length.mpr (by simpa using hallowed)
    rw [hnone, length_range]
  | false =>
    obtain ⟨hlt, -, hno⟩ := h.cut rfl
    have hno := hno.resolve_right (fun hmore => hf hmore.1)
    refine ⟨?_, by simp [hlt.ne]⟩
    rw [reach, eq_comm, findIdx_eq (by rwa [length_range])]
    simpa using ⟨hno, hallowed⟩

theorem piece_le (va len : Nat) : piece va len ≤ len := min_le_right _ _

theorem first_page {i : Nat} (hi : i < piece va len) : (va + i) / pgsize = va / pgsize := by
  simp only [piece, pgrounddown, pgsize] at *
  omega

theorem next_page (hva : pgrounddown va < maxva) (hlt : piece va len < len) :
    u64 (pgrounddown va + pgsize) = va + piece va len ∧ (va + piece va len) % pgsize = 0 := by
  obtain ⟨halign, hdown, hup⟩ := pgrounddown_spec va
  have hmax := maxva_lt
  have hnext : va + piece va len = pgrounddown va + pgsize := by
    rw [piece] at *
    omega
  rw [hnext, Nat.add_mod_right]
  refine ⟨Nat.mod_eq_of_lt ?_, halign⟩
  simp only [pgsize]
  omega

theorem Reached.next (hva : pgrounddown va < maxva)
    (hallowed : ∀ a, Allowed (u.view root sz) perm a ↔ Allowed (s.view root sz) perm a)
    (hfailures : s.failures ≤ u.failures) (hserved : Served s t root sz perm va)
    (h : Reached root sz u t perm (u64 (pgrounddown va + pgsize)) (len - piece va len) r n) :
    Reached root sz s t perm va len r (piece va len + n) := by
  refine Reached.step (u := u) (min_le_right _ _) hallowed hfailures (fun i hi => ?_)
    (fun hlt => (next_page hva hlt).2) ?_
  · obtain ⟨hall, hthere⟩ := hserved
    rw [allowed_iff] at hall
    exact ⟨by rwa [allowed_iff, first_page hi], by rwa [first_page hi]⟩
  · by_cases hlt : piece va len < len
    · rwa [← (next_page hva hlt).1]
    · rw [Nat.sub_eq_zero_of_le (not_lt.mp hlt)] at h ⊢
      obtain ⟨rfl, rfl⟩ := h.done
      exact Reached.nothing root sz u t perm _

theorem Reached.overwritten_next (hva : pgrounddown va < maxva)
    (h : Reached root sz u t perm (u64 (pgrounddown va + pgsize))
      (src.length - piece va src.length) r n)
    (m : View) : overwritten (overwritten m va (src.take (piece va src.length)))
        (u64 (pgrounddown va + pgsize))
        ((src.drop (piece va src.length)).take n) =
      overwritten m va (src.take (piece va src.length + n)) := by
  by_cases hlt : piece va src.length < src.length
  · have hlength : (src.take (piece va src.length)).length = piece va src.length := by
      rw [length_take]
      omega
    rw [(next_page hva hlt).1, take_add, ← overwritten_append, hlength]
  · rw [Nat.sub_eq_zero_of_le (not_lt.mp hlt)] at h
    obtain ⟨-, rfl⟩ := h.done
    rw [take_zero, overwritten_nil, Nat.add_zero]

theorem not_missing (hcell : s.cell root (slotOf (k * pgsize)) = some c) :
    ¬ Missing s root sz k := by
  rintro ⟨-, hnone⟩
  rw [hcell] at hnone
  simp at hnone

theorem refused_of_fault (hcell : t.cell root = s.cell root)
    (hwhy : s.failures < t.failures ∧ Missing s root sz (va / pgsize) ∨
      userPage (s.view root sz) va = none) : ¬ Allowed (s.view root sz) perm va ∨
        s.failures < t.failures ∧ Missing t root sz (va / pgsize) := by
  rcases hwhy with ⟨hmore, hmissing⟩ | hnone
  · exact .inr ⟨hmore, hmissing.1, hcell ▸ hmissing.2⟩
  · exact .inl (not_allowed hnone)

theorem Space.copyoutLoop_reached (h : Space all root sz frame s) (hp : p.pagetable = root)
    (hsz : p.sz = sz) (hfuel : src.length ≤ fuel) :
    Ends (Vm.copyoutLoop p root fuel dstva src) s (fun r t =>
      Became all root s t sz (t.cell root) ∧ Brings root sz s t ∧
      ∃ n, Reached root sz s t pteW dstva src.length r n ∧
        t.view root sz = overwritten (s.view root sz) dstva (src.take n)) E := by
  induction fuel generalizing s dstva src with
  | zero =>
    obtain rfl := length_eq_zero_iff.mp (Nat.le_zero.mp hfuel)
    rw [Vm.copyoutLoop, if_pos rfl]
    exact Ends.pure ⟨h.user.became, Brings.refl root sz s, 0, Reached.nothing root sz s s _ _,
      (overwritten_nil _ _).symm⟩
  | succ fuel ih =>
    rw [Vm.copyoutLoop]
    by_cases hsrc : src = []
    · rw [if_pos hsrc, hsrc]
      exact Ends.pure ⟨h.user.became, Brings.refl root sz s, 0, Reached.nothing root sz s s _ _,
        (overwritten_nil _ _).symm⟩
    rw [if_neg hsrc]
    have hlen : src.length ≠ 0 := fun hz => hsrc (length_eq_zero_iff.mp hz)
    have hoff := pgrounddown_off dstva
    split_ifs with hmax
    · exact Ends.pure ⟨h.user.became, Brings.refl root sz s, 0,
        Reached.refused hlen (.inl (not_allowed (userPage_high hmax))), (overwritten_nil _ _).symm⟩
    refine (h.faultIn (k := dstva / pgsize) hp hsz).bind ?_
    rintro r t ⟨⟨ht, hbrings, hview⟩, ⟨rfl, hcell, hwhy⟩ | ⟨hr, hk, pte, hv, hpte, rfl, hu⟩⟩
    · rw [if_pos rfl]
      rw [userPage_div] at hwhy
      refine Ends.pure ⟨ht, hbrings, 0, Reached.refused hlen (refused_of_fault hcell hwhy), ?_⟩
      rw [hview, take_zero, overwritten_nil]
    · rw [if_neg hr]
      have hcell : t.view root sz _ = _ := view_of_cell hk (User.cell_of_map hv hpte)
      rw [hview] at hcell
      rw [← pgrounddown] at hk hv hpte
      obtain ⟨a, hwalk, hread, -, -⟩ := walk_mapped hk hpte
      refine Ends.bind_ok hwalk (Ends.bind_ok hread ?_)
      dsimp only
      split_ifs with hw
      · refine Ends.pure ⟨ht, hbrings, 0, Reached.refused hlen (.inl ?_), ?_⟩
        · rw [allowed_iff]
          rintro ⟨c, hc, -, hcw⟩
          rw [hcell, Option.some_inj] at hc
          rw [← hc, flags_and (by decide)] at hcw
          exact hcw hw
        · rw [hview, take_zero, overwritten_nil]
      · have hstore := ht.user.store (written (t.page (pte2pa pte)).byte (dstva - pgrounddown dstva)
          (src.take (piece dstva src.length))) hv hpte
        refine Ends.bind_ok (a := ()) rfl ?_
        have hspace := hstore.space (ht.space h.special).special
        have hstored : Ram.view _ root sz = _ := view_store (k := dstva / pgsize) hk hstore.cell
        rw [hview, overwritten_page hcell (by rw [length_take, piece]; omega)] at hstored
        refine (ih hspace (by rw [length_drop]; omega)).post ?_
        rintro r u ⟨hbecame, hbrings', n, hreached, hbytes⟩
        rw [length_drop] at hreached
        have hbrought : Brings root sz t _ :=
          ⟨fun k hk => hk.of_update hstore.cell, fun hless => absurd hless (lt_irrefl _)⟩
        refine ⟨ht.trans (hstore.trans hbecame), hbrings.trans (hbrought.trans hbrings'), _,
          Reached.next hk 
            (fun a => (congrArg (Allowed · pteW a) hstored).to_iff.trans allowed_overwritten) ht.within.failures ⟨?_, ?_⟩
            hreached, ?_⟩
        · rw [allowed_iff]
          refine ⟨_, hcell, ?_, ?_⟩
          · rw [flags_and (by decide)]
            exact hu
          · rw [flags_and (by decide)]
            exact hw
        · exact fun hmissing => not_missing (User.cell_of_map hv hpte)
            ((hbrought.trans hbrings').missing _ hmissing)
        · rw [hbytes, hstored]
          exact hreached.overwritten_next hk _

theorem bytesAt_zero (m : View) (va : Nat) : bytesAt m va 0 = [] := rfl

theorem bytesAt_add (m : View) (va i j : Nat) :
    bytesAt m va (i + j) = bytesAt m va i ++ bytesAt m (va + i) j := by
  rw [bytesAt, range_add, map_append, map_map, bytesAt, bytesAt]
  simp only [Function.comp_def, Nat.add_assoc]

theorem excerpt_page (hm : m (va / pgsize) = some c) (len : Nat) :
    excerpt c.byte (va - pgrounddown va) (piece va len) = bytesAt m va (piece va len) := by
  refine map_congr_left (fun i hi => ?_)
  have hpage := first_page (mem_range.mp hi)
  have hmod : (va + i) % pgsize = va - pgrounddown va + i := by
    simp only [pgrounddown, pgsize] at *
    omega
  rw [byteAt, seen, hpage, hm, Option.map_some, Option.map_some, Option.getD_some, hmod]

theorem Reached.bytesAt_next (hva : pgrounddown va < maxva)
    (h : Reached root sz u t perm (u64 (pgrounddown va + pgsize))
      (len - piece va len) r n) (m : View) :
    bytesAt m va (piece va len) ++ bytesAt m (u64 (pgrounddown va + pgsize)) n =
      bytesAt m va (piece va len + n) := by
  by_cases hlt : piece va len < len
  · rw [(next_page hva hlt).1, bytesAt_add]
  · rw [Nat.sub_eq_zero_of_le (not_lt.mp hlt)] at h
    obtain ⟨-, rfl⟩ := h.done
    exact append_nil _

theorem Space.copyinLoop_reached (h : Space all root sz frame s) (hp : p.pagetable = root)
    (hsz : p.sz = sz) (hfuel : len ≤ fuel) :
    Ends (Vm.copyinLoop p root fuel srcva len dst) s (fun r t =>
      Unseen all root sz s t ∧
      ∃ n, Reached root sz s t pteU srcva len r.1 n ∧
        r.2 = dst ++ bytesAt (s.view root sz) srcva n) E := by
  induction fuel generalizing s srcva len dst with
  | zero =>
    obtain rfl := Nat.le_zero.mp hfuel
    rw [Vm.copyinLoop, if_pos rfl]
    exact Ends.pure ⟨Unseen.refl h.user, 0, Reached.nothing root sz s s _ _, (append_nil _).symm⟩
  | succ fuel ih =>
    rw [Vm.copyinLoop]
    split_ifs with hlen
    · rw [hlen]
      exact Ends.pure ⟨Unseen.refl h.user, 0, Reached.nothing root sz s s _ _, (append_nil _).symm⟩
    have hoff := pgrounddown_off srcva
    refine (h.faultIn (k := srcva / pgsize) hp hsz).bind ?_
    rintro r t ⟨ht, ⟨rfl, hcell, hwhy⟩ | ⟨hr, hk, pte, hv, hpte, rfl, hu⟩⟩
    · rw [if_pos rfl]
      rw [userPage_div] at hwhy
      exact Ends.pure ⟨ht, 0,
        Reached.refused hlen (refused_of_fault hcell hwhy), (append_nil _).symm⟩
    · rw [if_neg hr]
      have hcell : t.view root sz _ = _ := view_of_cell hk (User.cell_of_map hv hpte)
      rw [ht.view] at hcell
      refine Ends.bind_ok (a := excerpt (t.page (pte2pa pte)).byte (srcva - pgrounddown srcva) _)
        (t := t) rfl ?_
      refine (ih (ht.became.space h.special) (by omega)).post ?_
      rintro r u ⟨hu', n, hreached, hbytes⟩
      refine ⟨ht.trans hu', _,
        Reached.next hk (fun _ => by rw [ht.view]) ht.became.within.failures ⟨?_, ?_⟩ hreached, ?_⟩
      · rw [allowed_iff]
        refine ⟨_, hcell, ?_, ?_⟩
        · rw [flags_and (by decide)]
          exact hu
        · rw [flags_and (by decide)]
          exact hu
      · exact fun hmissing => not_missing (User.cell_of_map hv hpte) (hu'.brings.missing _ hmissing)
      · rw [hbytes, ht.view, append_assoc, ← piece, excerpt_page hcell, hreached.bytesAt_next hk]

structure Scanned (m : View) (va max : Nat) (r : Bool) (n : Nat) : Prop where
  le : n ≤ max
  allowed : ∀ i < n, Allowed m pteU (va + i)
  clear : ∀ i < n, byteAt m (va + i) = 0 → r = true ∧ i + 1 = n
  ended : r = true → ∃ i, i + 1 = n ∧ byteAt m (va + i) = 0
  cut : r = false → n = max ∨ ¬ Allowed m pteU (va + n)

theorem Scanned.step {max first : Nat} (hfirst : first ≤ max)
    (hallowed : ∀ i < first, Allowed m pteU (va + i))
    (hclear : ∀ i < first, byteAt m (va + i) ≠ 0)
    (h : Scanned m (va + first) (max - first) r n) : Scanned m va max r (first + n) where
  le := by
    have hle := h.le
    omega
  allowed i hi := by
    by_cases hlow : i < first
    · exact hallowed i hlow
    · have hrest := h.allowed (i - first) (by omega)
      rwa [show va + first + (i - first) = va + i by omega] at hrest
  clear i hi hzero := by
    by_cases hlow : i < first
    · exact absurd hzero (hclear i hlow)
    · have hrest := h.clear (i - first) (by omega)
      rw [show va + first + (i - first) = va + i by omega] at hrest
      obtain ⟨hr, hn⟩ := hrest hzero
      exact ⟨hr, by omega⟩
  ended hr := by
    obtain ⟨i, rfl, hzero⟩ := h.ended hr
    exact ⟨first + i, by omega, by rwa [← Nat.add_assoc]⟩
  cut hr := by
    rw [← Nat.add_assoc]
    exact (h.cut hr).imp_left (fun hn => by omega)

theorem Scanned.found {max first : Nat} (hfirst : first ≤ max)
    (hallowed : ∀ i < first, Allowed m pteU (va + i)) (hzero : 0 ∈ bytesAt m va first) :
    ∃ n, Scanned m va max true n ∧
      (bytesAt m va first).takeWhile (· ≠ 0) ++ [0] = bytesAt m va n := by
  obtain ⟨before, after, hsplit, hnot⟩ := eq_append_cons_of_mem hzero
  have hlength : first = before.length + (after.length + 1) := by
    have hlen := congrArg length hsplit
    rwa [bytesAt, length_map, length_range, length_append, length_cons] at hlen
  have hbyte : ∀ i < first, (before ++ 0 :: after)[i]? = some (byteAt m (va + i)) := by
    intro i hi
    rw [← hsplit, bytesAt, getElem?_map, getElem?_range hi, Option.map_some]
  have hat := hbyte before.length (by omega)
  rw [getElem?_append_right le_rfl, Nat.sub_self, getElem?_cons_zero, Option.some_inj] at hat
  refine ⟨before.length + 1, ⟨by omega, fun i hi => hallowed i (by omega), fun i hi hb => ?_,
    fun _ => ⟨before.length, rfl, hat.symm⟩, fun h => by simp at h⟩, ?_⟩
  · refine ⟨rfl, ?_⟩
    by_contra hne
    have hbefore := hbyte i (by omega)
    rw [getElem?_append_left (by omega), hb] at hbefore
    exact hnot (mem_of_getElem? hbefore)
  · have htake : (bytesAt m va first).takeWhile (· ≠ 0) = before := by
      rw [hsplit, takeWhile_append_of_pos, takeWhile_cons_of_neg (by simp), append_nil]
      intro b hb
      simp only [ne_eq, decide_not, Bool.not_eq_eq_eq_not, Bool.not_true, decide_eq_false_iff_not]
      exact fun hz => hnot (hz ▸ hb)
    have hprefix : bytesAt m va first = bytesAt m va before.length ++
        bytesAt m (va + before.length) (after.length + 1) := by
      rw [hlength, bytesAt_add]
    rw [hsplit] at hprefix
    have hbefore : before = bytesAt m va before.length := by
      refine (append_inj hprefix ?_).1
      rw [bytesAt, length_map, length_range]
    rw [htake, bytesAt_add, ← hbefore, bytesAt, range_one, map_singleton, Nat.add_zero, ← hat]

theorem viewCopyinstr_scanned {max : Nat} (hhigh : ∀ k, maxva ≤ k * pgsize → m k = none)
    (hfuel : max ≤ fuel) : ∃ n, Scanned m srcva max (viewCopyinstr m fuel srcva max dst).1 n ∧
      (viewCopyinstr m fuel srcva max dst).2 = dst ++ bytesAt m srcva n := by
  have hnothing : ∀ srcva, Scanned m srcva 0 false 0 := fun srcva =>
    ⟨le_rfl, fun i hi => absurd hi (Nat.not_lt_zero i), fun i hi => absurd hi (Nat.not_lt_zero i),
      fun h => by simp at h, fun _ => .inl rfl⟩
  induction fuel generalizing srcva max dst with
  | zero =>
    obtain rfl := Nat.le_zero.mp hfuel
    exact ⟨0, hnothing srcva, (append_nil _).symm⟩
  | succ fuel ih =>
    rw [viewCopyinstr]
    split_ifs with hmax
    · rw [hmax]
      exact ⟨0, hnothing srcva, (append_nil _).symm⟩
    cases hpage : userPage m srcva with
    | none =>
      refine ⟨0, ⟨Nat.zero_le _, fun i hi => absurd hi (Nat.not_lt_zero i),
        fun i hi => absurd hi (Nat.not_lt_zero i), fun h => by simp at h,
        fun _ => .inr (not_allowed hpage)⟩, (append_nil _).symm⟩
    | some c =>
      obtain ⟨hc, hu⟩ := Option.filter_eq_some_iff.mp hpage
      rw [decide_eq_true_eq] at hu
      have hva : pgrounddown srcva < maxva := by
        by_contra hle
        rw [hhigh _ (not_lt.mp hle)] at hc
        simp at hc
      have hoff := pgrounddown_off srcva
      have hallowed : ∀ i < piece srcva max, Allowed m pteU (srcva + i) := by
        intro i hi
        rw [allowed_iff, first_page hi]
        exact ⟨c, hc, hu, hu⟩
      dsimp only
      rw [← piece, excerpt_page hc]
      split_ifs with hzero
      · obtain ⟨n, hn, hbytes⟩ := Scanned.found (piece_le _ _) hallowed (contains_iff_mem.mp hzero)
        exact ⟨n, hn, by rw [append_assoc, hbytes]⟩
      · have hclear : ∀ i < piece srcva max, byteAt m (srcva + i) ≠ 0 := by
          intro i hi hb
          rw [contains_iff_mem] at hzero
          exact hzero (mem_map.mpr ⟨i, mem_range.mpr hi, hb⟩)
        have hrest := @ih (u64 (pgrounddown srcva + pgsize))
          (dst ++ bytesAt m srcva (piece srcva max))
          (max - piece srcva max) (by rw [piece]; omega)
        obtain ⟨n, hn, hbytes⟩ := hrest
        rw [hbytes, append_assoc]
        by_cases hlt : piece srcva max < max
        · rw [(next_page hva hlt).1] at hn ⊢
          exact ⟨_, hn.step (piece_le _ _) hallowed hclear, by rw [bytesAt_add]⟩
        · -- the last of the bytes
          rw [Nat.sub_eq_zero_of_le (not_lt.mp hlt)] at hn ⊢
          obtain rfl := Nat.le_zero.mp hn.le
          refine ⟨piece srcva max + 0, Scanned.step (piece_le _ _) hallowed hclear ?_,
            by rw [Nat.add_zero, bytesAt_zero, append_nil]⟩
          rw [Nat.sub_eq_zero_of_le (not_lt.mp hlt)]
          cases fuel with
          | zero => exact hnothing _
          | succ fuel =>
            rw [viewCopyinstr, if_pos rfl]
            exact hnothing _

theorem Space.copyinstrLoop {max : Nat} (h : Space all root sz frame s) (hfuel : max ≤ fuel) :
    copyinstrLoop root fuel srcva max dst s =
      .ok (viewCopyinstr (s.view root 0) fuel srcva max dst, s) := by
  induction fuel generalizing srcva max dst with
  | zero =>
    rw [Vm.copyinstrLoop, if_pos (by omega)]
    rfl
  | succ fuel ih =>
    rw [Vm.copyinstrLoop, viewCopyinstr]
    split_ifs with hmax
    · rfl
    rcases h.walkaddr (srcva / pgsize) with ⟨pte, hk, hv, hpte, hu, hrun⟩ | ⟨hrun, hclosed⟩
    · have hpage := userPage_of_map 0 hk hv hpte hu
      rw [userPage_div] at hpage
      rw [← pgrounddown] at hrun
      rw [hpage, bind_ok hrun, if_neg (h.user.pa_ne_zero hv hpte)]
      refine (bind_ok (a := excerpt (s.page (pte2pa pte)).byte (srcva - pgrounddown srcva) _)
        (t := s) rfl).trans ?_
      dsimp only
      split_ifs with hzero
      · rfl
      · have hoff := pgrounddown_off srcva
        exact ih (by omega)
    · have hnone : userPage (s.view root 0) srcva = none :=
        view_filter (fun hmiss => Nat.not_lt_zero _ hmiss.1)
          (fun c hk hc => by simpa using hclosed c hk hc)
      rw [hnone, pgrounddown, bind_ok hrun]
      rfl

theorem Scanned.iff_ends {max : Nat} (h : Scanned m va max r n) :
    r = true ↔ ∃ i < max, byteAt m (va + i) = 0 ∧ ∀ j ≤ i, Allowed m pteU (va + j) := by
  have hle := h.le
  constructor
  · intro hr
    obtain ⟨i, rfl, hzero⟩ := h.ended hr
    exact ⟨i, by omega, hzero, fun j hj => h.allowed j (by omega)⟩
  · rintro ⟨i, hi, hzero, hall⟩
    by_cases hin : i < n
    · exact (h.clear i hin hzero).1
    · cases r with
      | true => rfl
      | false =>
        rcases h.cut rfl with rfl | hno
        · exact absurd hi hin
        · exact absurd (hall n (not_lt.mp hin)) hno

theorem Scanned.unique {max n' : Nat} {r' : Bool} (h : Scanned m va max r n)
    (h' : Scanned m va max r' n') : r = r' ∧ n = n' := by
  have hr : r = r' := Bool.eq_iff_iff.mpr (h.iff_ends.trans h'.iff_ends.symm)
  subst hr
  have hle : ∀ {i k}, Scanned m va max r i → Scanned m va max r k → k ≤ i := by
    intro i k hi hk
    by_contra hlt
    cases r with
    | true =>
      obtain ⟨j, hj, hzero⟩ := hi.ended rfl
      have hend := (hk.clear j (by omega) hzero).2
      omega
    | false =>
      rcases hi.cut rfl with rfl | hno
      · exact hlt hk.le
      · exact hno (hk.allowed i (not_le.mp hlt))
  exact ⟨rfl, le_antisymm (hle h' h) (hle h h')⟩

theorem Scanned.string {max : Nat} (h : Scanned m va max r n) (hr : r = true) :
    ∃ i, n = i + 1 ∧ byteAt m (va + i) = 0 ∧ ∀ j < i, byteAt m (va + j) ≠ 0 := by
  obtain ⟨i, hi, hzero⟩ := h.ended hr
  refine ⟨i, hi.symm, hzero, fun j hj hb => ?_⟩
  have hend := (h.clear j (by omega) hb).2
  omega

theorem view_high (hk : maxva ≤ k * pgsize) : s.view root sz k = none := by
  rw [Ram.view, if_neg (not_lt.mpr hk)]

/-- The copies obey the page table. In the view of size 0 only those pages count that
are there. -/
theorem user_copies (h : Space all root sz frame s) (hp : p.pagetable = root) (hsz : p.sz = sz) :
    (∀ dstva src, ∃ r t n, copyout p root dstva src s = .ok (r, t) ∧
      (r = true ↔ ∀ i < src.length, Served s t root sz pteW (dstva + i)) ∧
      (t.failures = s.failures →
        (r = true ↔ ∀ i < src.length, Allowed (s.view root sz) pteW (dstva + i))) ∧
      Became all root s t sz (t.cell root) ∧ Reached root sz s t pteW dstva src.length r n ∧
      seen (t.view root sz) = replaced (seen (s.view root sz)) dstva (src.take n)) ∧
    (∀ srcva len, ∃ r t n, copyin p root srcva len s = .ok (r, t) ∧
      (r.1 = true ↔ ∀ i < len, Served s t root sz pteU (srcva + i)) ∧
      (t.failures = s.failures →
        (r.1 = true ↔ ∀ i < len, Allowed (s.view root sz) pteU (srcva + i))) ∧
      Became all root s t sz (t.cell root) ∧ Reached root sz s t pteU srcva len r.1 n ∧
      t.view root sz = s.view root sz ∧ r.2 = bytesAt (s.view root sz) srcva n) ∧
    (∀ srcva max, ∃ r n, copyinstr root srcva max s = .ok (r, s) ∧
      (r.1 = true ↔ ∃ i < max, byteAt (s.view root 0) (srcva + i) = 0 ∧
        ∀ j ≤ i, Allowed (s.view root 0) pteU (srcva + j)) ∧
      r.2 = bytesAt (s.view root 0) srcva n ∧ n ≤ max ∧
      (∀ i < n, Allowed (s.view root 0) pteU (srcva + i)) ∧
      (r.1 = true → ∃ i, n = i + 1 ∧ byteAt (s.view root 0) (srcva + i) = 0 ∧
        ∀ j < i, byteAt (s.view root 0) (srcva + j) ≠ 0)) := by
  refine ⟨fun dstva src => ?_, fun srcva len => ?_, fun srcva max => ?_⟩
  · obtain ⟨r, t, hrun, hbecame, -, n, hreached, hbytes⟩ :=
      Ends.returns (m := copyout p root dstva src) (h.copyoutLoop_reached hp hsz le_rfl)
    refine ⟨r, t, n, hrun, hreached.iff_served, hreached.iff_allowed, hbecame, hreached, ?_⟩
    rw [hbytes, seen_overwritten]
  · obtain ⟨r, t, hrun, ht, n, hreached, hbytes⟩ :=
      Ends.returns (m := copyin p root srcva len) (h.copyinLoop_reached hp hsz le_rfl)
    exact ⟨r, t, n, hrun, hreached.iff_served, hreached.iff_allowed, ht.became, hreached, ht.view,
      hbytes⟩
  · have hrun : copyinstr root srcva max s = .ok (viewCopyinstr (s.view root 0) max srcva max [], s) :=
      h.copyinstrLoop le_rfl
    have hscan : ∃ n, Scanned (s.view root 0) srcva max
        (viewCopyinstr (s.view root 0) max srcva max []).1 n ∧
        (viewCopyinstr (s.view root 0) max srcva max []).2 = [] ++ bytesAt (s.view root 0) srcva n :=
      viewCopyinstr_scanned (fun k hk => view_high hk) le_rfl
    obtain ⟨n, hn, hbytes⟩ := hscan
    exact ⟨_, n, hrun, hn.iff_ends, hbytes, hn.le, hn.allowed, hn.string⟩

end Bytes

/-- Three bytes are written to memory that has to be brought in. -/
theorem user_copies_lazy : Space startPages 4096 100 32768 lazyRam ∧
    ∃ t, copyout lazyTask 4096 10 [1, 2, 3] lazyRam = .ok (true, t) ∧
      seen (t.view 4096 100) = replaced (seen (lazyRam.view 4096 100)) 10 [1, 2, 3] := by
  refine ⟨lazyRam_space, ?_⟩
  obtain ⟨hout, -, -⟩ := user_copies (p := lazyTask) lazyRam_space rfl rfl
  obtain ⟨r, t, n, hrun, -, -, -, hreached, hbytes⟩ := hout 10 [1, 2, 3]
  obtain ⟨t', ht'⟩ : ∃ t, copyout lazyTask 4096 10 [1, 2, 3] lazyRam = .ok (true, t) := ⟨_, rfl⟩
  have hr : r = true := congrArg Prod.fst (Except.ok.inj (hrun.symm.trans ht'))
  rw [hreached.whole hr] at hbytes
  exact ⟨t, hr ▸ hrun, hbytes⟩

end Xv6.Vm
