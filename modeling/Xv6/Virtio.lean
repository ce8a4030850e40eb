import Xv6.Types
import Xv6.Machine
import Xv6.WrapRing

/-! The virtio disk driver: descriptors, the two rings that it shares with the device,
and the steps of processes, device and interrupt handler. -/

namespace Xv6

namespace Virtio

open WrapRing Function Option

def num : Nat := 8

def bsize : Nat := 1024

inductive Addr where
  | null
  | op (i : Nat)
  | data (b : Nat)
  | status (i : Nat)
  deriving DecidableEq, Repr

structure Desc where
  addr : Addr
  len : Nat
  flags : BitVec 16
  next : Nat
  deriving DecidableEq, Repr

def Desc.blank : Desc := ⟨.null, 0, 0, 0⟩

def fNext : BitVec 16 := 1

def fWrite : BitVec 16 := 2

inductive OpType where
  | read
  | write
  deriving DecidableEq, Repr

structure Op where
  type : OpType
  sector : Nat
  deriving DecidableEq, Repr

/-- `disk`, with the rings; `usedIdx` is the device's index and `seenIdx` the driver's. -/
structure Disk where
  desc : Nat → Desc
  availIdx : BitVec 16
  availRing : Nat → Nat
  usedIdx : BitVec 16
  usedRing : Nat → Nat
  free : Nat → Bool
  seenIdx : BitVec 16
  infoB : Nat → Option Nat
  status : Nat → BitVec 8
  ops : Nat → Op

def allocDesc (d : Disk) : Option (Nat × Disk) :=
  ((List.range num).find? d.free).map (fun i => (i, { d with free := Function.update d.free i false }))

def freeDesc (i : Nat) (d : Disk) : Except String Disk :=
  if num ≤ i then .error "free_desc 1"
  else if d.free i = true then .error "free_desc 2"
  else .ok { d with
    desc := Function.update d.desc i Desc.blank
    free := Function.update d.free i true }

def freeChain : Nat → Nat → Disk → Except String Disk
  | 0, _, _ => .error "free_chain"
  | n + 1, i, d => do
    let x := d.desc i
    let d ← freeDesc i d
    if x.flags &&& fNext ≠ 0 then freeChain n x.next d else pure d

structure Chain where
  op : Nat
  data : Nat
  status : Nat
  deriving DecidableEq, Repr

def alloc3Desc (d : Disk) : Except String (Option Chain × Disk) :=
  match allocDesc d with
  | none => .ok (none, d)
  | some (i, d1) =>
    match allocDesc d1 with
    | none => do
      let d ← freeDesc i d1
      pure (none, d)
    | some (j, d2) =>
      match allocDesc d2 with
      | none => do
        let d ← freeDesc i d2
        let d ← freeDesc j d
        pure (none, d)
      | some (k, d3) => .ok (some ⟨i, j, k⟩, d3)

/-- A call of `virtio_disk_rw` for buffer `b` that holds block `blockno`. -/
structure Call where
  b : Nat
  blockno : Nat
  write : Bool
  deriving DecidableEq, Repr

def Call.op (c : Call) : Op :=
  ⟨if c.write then .write else .read, u32 (c.blockno * (bsize / 512))⟩

def Call.dataFlags (c : Call) : BitVec 16 := (if c.write then 0 else fWrite) ||| fNext

/-- The descriptors, the command header and `info` for a request. -/
def format (c : Call) (x : Chain) (d : Disk) : Disk :=
  { d with
    ops := Function.update d.ops x.op c.op
    desc := Function.update (Function.update (Function.update d.desc
      x.op ⟨.op x.op, 16, fNext, x.data⟩)
      x.data ⟨.data c.b, bsize, c.dataFlags, x.status⟩)
      x.status ⟨.status x.op, 1, fWrite, 0⟩
    status := Function.update d.status x.op 0xff
    infoB := Function.update d.infoB x.op (some c.b)
    availRing := Function.update d.availRing (cell num d.availIdx) x.op }

structure Request where
  head : Nat
  op : Op
  data : Nat
  flags : BitVec 16
  status : Nat
  deriving DecidableEq, Repr

def Disk.fetch (d : Disk) (head : Nat) : Option Request :=
  let d0 := d.desc head
  let d1 := d.desc d0.next
  let d2 := d.desc d1.next
  match d0.addr, d1.addr, d2.addr with
  | .op i, .data b, .status j =>
    if d0.flags &&& fNext ≠ 0 ∧ d1.flags &&& fNext ≠ 0 ∧ d2.flags &&& fNext = 0 ∧
        d2.flags &&& fWrite ≠ 0 then
      some ⟨head, d.ops i, b, d1.flags, j⟩
    else none
  | _, _, _ => none

/-- How far the device has read the available ring, the requests it works on, and the
one whose used entry is written but not yet counted. -/
structure Device where
  last : BitVec 16
  pending : List Request
  posting : Option Request

/-- Where a process is in `virtio_disk_rw`: asleep on `&disk.free[0]`, behind the
write of the ring entry with the lock held, or asleep on `b`. `k` numbers the
requests. -/
inductive Phase where
  | out
  | start (c : Call)
  | filled (c : Call) (x : Chain) (k : Nat)
  | waiting (c : Call) (x : Chain) (k : Nat)
  deriving DecidableEq, Repr

inductive Owner (P : Type) where
  | proc (p : P)
  | intr
  deriving DecidableEq

/-- The last six fields are history: the request of each head, the number of requests,
those that the device has completed and those whose call has returned, and all
entries of the two rings. -/
structure World (P : Type) where
  disk : Disk
  dev : Device
  busy : Nat → Bool
  lock : Option (Owner P)
  phase : P → Phase
  req : Nat → Nat
  next : Nat
  completed : List Nat
  returned : List Nat
  published : List Nat
  consumed : List Nat
  posted : List Nat
  seen : List Nat

inductive Event (P : Type) where
  | rw (p : P) (c : Call)
  | retry (p : P)
  | publish (p : P)
  | wake (p : P)
  | intr
  | poll
  | consume
  | finish (i : Nat)
  | post
  deriving DecidableEq

variable {P : Type} [DecidableEq P]

def World.setPhase (w : World P) (p : P) (x : Phase) : World P :=
  { w with phase := Function.update w.phase p x }

/-- `virtio_disk_rw` from where it has the lock: the process sleeps, or the request is
ready and its entry in the available ring is written. -/
def World.submit (w : World P) (p : P) (c : Call) : Except String (World P) := do
  match ← alloc3Desc w.disk with
  | (none, d) => pure { w.setPhase p (.start c) with disk := d }
  | (some x, d) =>
    pure { w.setPhase p (.filled c x w.next) with
      disk := format c x d
      busy := Function.update w.busy c.b true
      lock := some (.proc p)
      req := Function.update w.req x.op w.next
      next := w.next + 1 }

/-- The index of the available ring is incremented, and the process sleeps on `b`. -/
def World.publish (w : World P) (p : P) (c : Call) (x : Chain) (k : Nat) : World P :=
  { w.setPhase p (.waiting c x k) with
    disk := { w.disk with availIdx := w.disk.availIdx + 1 }
    lock := none
    published := w.published ++ [x.op] }

/-- The process has the lock again; it sleeps on, or ends the call. -/
def World.wake (w : World P) (p : P) (c : Call) (x : Chain) (k : Nat) : Except String (World P) :=
  if w.busy c.b = true then pure w
  else do
    let d ← freeChain (num + 1) x.op { w.disk with infoB := Function.update w.disk.infoB x.op none }
    pure { w.setPhase p .out with disk := d, returned := w.returned ++ [k] }

def World.poll (w : World P) : Except String (World P) :=
  if w.disk.seenIdx = w.disk.usedIdx then pure { w with lock := none }
  else
    let id := w.disk.usedRing (cell num w.disk.seenIdx)
    if w.disk.status id ≠ 0 then .error "virtio_disk_intr status"
    else
      match w.disk.infoB id with
      | none => .error "virtio_disk_intr b"
      | some b => pure { w with
          disk := { w.disk with seenIdx := w.disk.seenIdx + 1 }
          busy := Function.update w.busy b false
          seen := w.seen ++ [id] }

def World.consume (w : World P) : Except String (World P) :=
  let head := w.disk.availRing (cell num w.dev.last)
  match w.disk.fetch head with
  | none => .error "device: bad chain"
  | some r => pure { w with
      dev := { w.dev with last := w.dev.last + 1, pending := w.dev.pending ++ [r] }
      consumed := w.consumed ++ [head] }

/-- The device has done request `r`: it writes the status and the used entry. -/
def World.finish (w : World P) (r : Request) : World P :=
  { w with
    disk := { w.disk with
      status := Function.update w.disk.status r.status 0
      usedRing := Function.update w.disk.usedRing (cell num w.disk.usedIdx) r.head }
    dev := { w.dev with pending := w.dev.pending.erase r, posting := some r }
    completed := w.completed ++ [w.req r.head] }

def World.post (w : World P) (r : Request) : World P :=
  { w with
    disk := { w.disk with usedIdx := w.disk.usedIdx + 1 }
    dev := { w.dev with posting := none }
    posted := w.posted ++ [r.head] }

def Phase.buf : Phase → Option Nat
  | .out => none
  | .start c => some c.b
  | .filled c _ _ => some c.b
  | .waiting c _ _ => some c.b

/-- A step; `virtio_disk_rw` is called with a buffer that is locked by the caller, so
that no other process is in a call with it. -/
def World.step [Fintype P] (w : World P) : Event P → Option (Except String (World P))
  | .rw p c =>
    if w.lock = none ∧ w.phase p = .out ∧ ∀ q, (w.phase q).buf ≠ some c.b then
      some (w.submit p c)
    else none
  | .retry p =>
    match w.phase p with
    | .start c => if w.lock = none then some (w.submit p c) else none
    | _ => none
  | .publish p =>
    match w.phase p with
    | .filled c x k => some (.ok (w.publish p c x k))
    | _ => none
  | .wake p =>
    match w.phase p with
    | .waiting c x k => if w.lock = none then some (w.wake p c x k) else none
    | _ => none
  | .intr => if w.lock = none then some (.ok { w with lock := some .intr }) else none
  | .poll => if w.lock = some .intr then some w.poll else none
  | .consume => if w.dev.last ≠ w.disk.availIdx then some w.consume else none
  | .finish i =>
    match w.dev.posting, w.dev.pending[i]? with
    | none, some r => some (.ok (w.finish r))
    | _, _ => none
  | .post => w.dev.posting.map (fun r => .ok (w.post r))

def machine (P : Type) [DecidableEq P] [Fintype P] : Machine (World P) (Event P) :=
  ⟨fun w ev => (w.step ev).bind Except.toOption⟩

def boot (P : Type) : World P where
  disk := {
    desc := fun _ => Desc.blank
    availIdx := 0
    availRing := fun _ => 0
    usedIdx := 0
    usedRing := fun _ => 0
    free := fun _ => true
    seenIdx := 0
    infoB := fun _ => none
    status := fun _ => 0
    ops := fun _ => ⟨.read, 0⟩ }
  dev := ⟨0, [], none⟩
  busy := fun _ => false
  lock := none
  phase := fun _ => .out
  req := fun _ => 0
  next := 0
  completed := []
  returned := []
  published := []
  consumed := []
  posted := []
  seen := []

inductive Step (w : World P) : Event P → Except String (World P) → Prop
  | rw (p : P) (c : Call) (hl : w.lock = none) (hp : w.phase p = .out)
      (hb : ∀ q, (w.phase q).buf ≠ some c.b) : Step w (.rw p c) (w.submit p c)
  | retry (p : P) (c : Call) (hl : w.lock = none) (hp : w.phase p = .start c) :
      Step w (.retry p) (w.submit p c)
  | publish (p : P) (c : Call) (x : Chain) (k : Nat) (hp : w.phase p = .filled c x k) :
      Step w (.publish p) (.ok (w.publish p c x k))
  | wake (p : P) (c : Call) (x : Chain) (k : Nat) (hl : w.lock = none)
      (hp : w.phase p = .waiting c x k) : Step w (.wake p) (w.wake p c x k)
  | intr (hl : w.lock = none) : Step w .intr (.ok { w with lock := some .intr })
  | poll (hl : w.lock = some .intr) : Step w .poll w.poll
  | consume (hne : w.dev.last ≠ w.disk.availIdx) : Step w .consume w.consume
  | finish (i : Nat) (r : Request) (hr : r ∈ w.dev.pending) (hn : w.dev.posting = none) :
      Step w (.finish i) (.ok (w.finish r))
  | post (r : Request) (hr : w.dev.posting = some r) : Step w .post (.ok (w.post r))

theorem step_cases [Fintype P] {w : World P} {ev : Event P} {o : Except String (World P)}
    (h : w.step ev = some o) : Step w ev o := by
  cases ev with
  | rw p c =>
    obtain ⟨⟨hl, hp, hb⟩, he⟩ := ite_none_right_eq_some.mp h
    cases he
    exact .rw p c hl hp hb
  | retry p =>
    simp only [World.step] at h
    cases hp : w.phase p with
    | start c =>
      rw [hp] at h
      obtain ⟨hl, he⟩ := ite_none_right_eq_some.mp h
      cases he
      exact .retry p c hl hp
    | out => rw [hp] at h; cases h
    | filled c x k => rw [hp] at h; cases h
    | waiting c x k => rw [hp] at h; cases h
  | publish p =>
    simp only [World.step] at h
    cases hp : w.phase p with
    | filled c x k =>
      rw [hp] at h
      cases h
      exact .publish p c x k hp
    | out => rw [hp] at h; cases h
    | start c => rw [hp] at h; cases h
    | waiting c x k => rw [hp] at h; cases h
  | wake p =>
    simp only [World.step] at h
    cases hp : w.phase p with
    | waiting c x k =>
      rw [hp] at h
      obtain ⟨hl, he⟩ := ite_none_right_eq_some.mp h
      cases he
      exact .wake p c x k hl hp
    | out => rw [hp] at h; cases h
    | start c => rw [hp] at h; cases h
    | filled c x k => rw [hp] at h; cases h
  | intr =>
    obtain ⟨hl, he⟩ := ite_none_right_eq_some.mp h
    cases he
    exact .intr hl
  | poll =>
    obtain ⟨hl, he⟩ := ite_none_right_eq_some.mp h
    cases he
    exact .poll hl
  | consume =>
    obtain ⟨hne, he⟩ := ite_none_right_eq_some.mp h
    cases he
    exact .consume hne
  | finish i =>
    simp only [World.step] at h
    cases hn : w.dev.posting with
    | some r => rw [hn] at h; cases h
    | none =>
      cases hr : w.dev.pending[i]? with
      | none => rw [hn, hr] at h; cases h
      | some r =>
        rw [hn, hr] at h
        cases h
        exact .finish i r (List.mem_of_getElem? hr) hn
  | post =>
    obtain ⟨r, hr, he⟩ := map_eq_some_iff.mp h
    cases he
    exact .post r hr

section Descriptors

variable {d d' : Disk} {i : Nat} {x : Chain} {c : Call}

theorem allocDesc_some (h : allocDesc d = some (i, d')) :
    i < num ∧ d.free i = true ∧ d' = { d with free := update d.free i false } := by
  obtain ⟨j, hj, he⟩ := map_eq_some_iff.mp h
  cases he
  exact ⟨List.mem_range.mp (List.mem_of_find?_eq_some hj), List.find?_some hj, rfl⟩

theorem freeDesc_ok (hi : i < num) (hf : d.free i = false) : freeDesc i d = .ok { d with
    desc := update d.desc i Desc.blank
    free := update d.free i true } := by
  rw [freeDesc, if_neg (Nat.not_le.mpr hi), if_neg (by simp [hf])]

structure Chain.Ok (x : Chain) : Prop where
  data : x.op ≠ x.data
  status : x.op ≠ x.status
  last : x.data ≠ x.status
  op_lt : x.op < num
  data_lt : x.data < num
  status_lt : x.status < num

def Chain.Has (x : Chain) (i : Nat) : Prop := i = x.op ∨ i = x.data ∨ i = x.status

instance (x : Chain) (i : Nat) : Decidable (x.Has i) :=
  inferInstanceAs (Decidable (i = x.op ∨ i = x.data ∨ i = x.status))

theorem alloc3Desc_spec (d : Disk) : (∃ desc, alloc3Desc d = .ok (none, { d with desc := desc }) ∧
      ∀ i, d.free i = false → desc i = d.desc i) ∨
    ∃ x, alloc3Desc d = .ok (some x, { d with
        free := fun i => d.free i && !decide (x.Has i) }) ∧ x.Ok ∧
      d.free x.op = true ∧ d.free x.data = true ∧ d.free x.status = true := by
  unfold alloc3Desc
  cases h1 : allocDesc d with
  | none => exact .inl ⟨d.desc, rfl, fun _ _ => rfl⟩
  | some r1 =>
    obtain ⟨i, d1⟩ := r1
    obtain ⟨hi, hfi, rfl⟩ := allocDesc_some h1
    simp only
    cases h2 : allocDesc { d with free := update d.free i false } with
    | none =>
      left
      simp only
      rw [freeDesc_ok hi (update_self ..)]
      have hfree : update (update d.free i false) i true = d.free := by
        rw [update_idem, ← hfi, update_eq_self]
      simp only [hfree]
      refine ⟨_, rfl, fun j hj => ?_⟩
      have hne : j ≠ i := by
        rintro rfl
        rw [hfi] at hj
        cases hj
      simp [hne]
    | some r2 =>
      obtain ⟨j, d2⟩ := r2
      obtain ⟨hj, hfj, rfl⟩ := allocDesc_some h2
      have hij : j ≠ i := by
        rintro rfl
        simp at hfj
      have hfj' : d.free j = true := by simpa [hij] using hfj
      simp only
      cases h3 : allocDesc { d with
          free := update (update d.free i false) j false } with
      | none =>
        left
        simp only
        rw [freeDesc_ok hi (by simp [hij.symm])]
        simp only [bind, Except.bind]
        rw [freeDesc_ok hj (by simp [hij])]
        have hfree : update (update (update (update d.free
            i false) j false) i true) j true = d.free := by
          funext m
          by_cases hmj : m = j
          · simp [hmj, hfj']
          · by_cases hmi : m = i
            · simp [hmi, hij.symm, hfi]
            · simp [hmj, hmi]
        simp only [hfree]
        refine ⟨_, rfl, fun m hm => ?_⟩
        have h1 : m ≠ i := by
          rintro rfl
          rw [hfi] at hm
          cases hm
        have h2 : m ≠ j := by
          rintro rfl
          rw [hfj'] at hm
          cases hm
        simp [h1, h2]
      | some r3 =>
        obtain ⟨k, d3⟩ := r3
        obtain ⟨hk, hfk, rfl⟩ := allocDesc_some h3
        have hkj : k ≠ j := by
          rintro rfl
          simp at hfk
        have hki : k ≠ i := by
          rintro rfl
          simp [hij.symm] at hfk
        have hfk' : d.free k = true := by simpa [hkj, hki] using hfk
        right
        refine ⟨⟨i, j, k⟩, ?_, ⟨hij.symm, hki.symm, hkj.symm, hi, hj, hk⟩, hfi, hfj', hfk'⟩
        have hfree : update (update (update d.free i false) j false)
            k false = fun m => d.free m && !decide ((⟨i, j, k⟩ : Chain).Has m) := by
          funext m
          by_cases hmk : m = k
          · simp [Chain.Has, hmk]
          · by_cases hmj : m = j
            · simp [Chain.Has, hmj, hkj.symm]
            · by_cases hmi : m = i
              · simp [Chain.Has, hmi, hki.symm, hij.symm]
              · simp [Chain.Has, hmk, hmj, hmi]
        simp only [hfree]

/-- The request is laid out in the descriptors of the chain. -/
structure Formatted (d : Disk) (c : Call) (x : Chain) : Prop where
  op : d.ops x.op = c.op
  first : d.desc x.op = ⟨.op x.op, 16, fNext, x.data⟩
  second : d.desc x.data = ⟨.data c.b, bsize, c.dataFlags, x.status⟩
  third : d.desc x.status = ⟨.status x.op, 1, fWrite, 0⟩
  info : d.infoB x.op = some c.b

def request (c : Call) (x : Chain) : Request := ⟨x.op, c.op, c.b, c.dataFlags, x.op⟩

theorem dataFlags_next (c : Call) : c.dataFlags &&& fNext ≠ 0 := by
  cases h : c.write <;> simp [Call.dataFlags, h, fNext, fWrite]

theorem Formatted.fetch (h : Formatted d c x) : d.fetch x.op = some (request c x) := by
  have h2 := dataFlags_next c
  simp only [Disk.fetch, h.first, h.second, h.third, h.op]
  rw [if_pos ⟨by decide, h2, by decide, by decide⟩]
  rfl

theorem Formatted.of_format (hx : x.Ok) : Formatted (format c x d) c x := by
  constructor
  case op => simp [format]
  case first => simp [format, hx.data, hx.status]
  case second => simp [format, hx.last]
  case third => simp [format]
  case info => simp [format]

theorem Formatted.congr (h : Formatted d c x) (hops : d'.ops x.op = d.ops x.op)
    (hdesc : ∀ i, x.Has i → d'.desc i = d.desc i) (hinfo : d'.infoB x.op = d.infoB x.op) :
    Formatted d' c x := by
  refine ⟨hops.trans h.op, ?_, ?_, ?_, hinfo.trans h.info⟩
  · exact (hdesc _ (.inl rfl)).trans h.first
  · exact (hdesc _ (.inr (.inl rfl))).trans h.second
  · exact (hdesc _ (.inr (.inr rfl))).trans h.third

theorem freeChain_ok (hx : x.Ok) (h1 : d.desc x.op = ⟨.op x.op, 16, fNext, x.data⟩)
    (h2 : d.desc x.data = ⟨.data c.b, bsize, c.dataFlags, x.status⟩)
    (h3 : d.desc x.status = ⟨.status x.op, 1, fWrite, 0⟩) (hf : ∀ i, x.Has i → d.free i = false) :
    ∃ desc, freeChain (num + 1) x.op d = .ok { d with
        desc := desc
        free := fun i => d.free i || decide (x.Has i) } ∧
      ∀ i, ¬ x.Has i → desc i = d.desc i := by
  have hf1 := hf _ (.inl rfl)
  have hf2 := hf _ (.inr (.inl rfl))
  have hf3 := hf _ (.inr (.inr rfl))
  have hn := dataFlags_next c
  rw [show num + 1 = 6 + 1 + 1 + 1 from rfl, freeChain, h1, freeDesc_ok hx.op_lt hf1]
  simp only [bind, Except.bind]
  rw [if_pos (by decide), freeChain]
  simp only [update_of_ne hx.data.symm, h2]
  rw [freeDesc_ok hx.data_lt (by simp [hx.data.symm, hf2])]
  simp only [bind, Except.bind]
  rw [if_pos hn, freeChain]
  simp only [update_of_ne hx.last.symm, update_of_ne hx.status.symm, h3]
  rw [freeDesc_ok hx.status_lt (by simp [hx.last.symm, hx.status.symm, hf3])]
  simp only [bind, Except.bind]
  rw [if_neg (by decide)]
  have hfree : update (update (update d.free x.op true) x.data true)
      x.status true = fun i => d.free i || decide (x.Has i) := by
    funext i
    by_cases h1 : i = x.status
    · simp [Chain.Has, h1]
    · by_cases h2 : i = x.data
      · simp [Chain.Has, h2, hx.last]
      · by_cases h3 : i = x.op
        · simp [Chain.Has, h3, hx.data, hx.status]
        · simp [Chain.Has, h1, h2, h3]
  refine ⟨update (update (update d.desc x.op .blank) x.data .blank)
    x.status .blank, ?_, fun i hi => ?_⟩
  · simp only [hfree]
    rfl
  · rw [Chain.Has, not_or, not_or] at hi
    simp [hi.1, hi.2.1, hi.2.2]

end Descriptors

end Virtio

end Xv6
