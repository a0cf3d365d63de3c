import GuardianCouncil.Lib.Since
import Mathlib.Order.Interval.Finset.Nat

/-!
# Load-linked and store-conditional

A `CacheBlk` keeps a list of locks, one for each load-linked that no one has interfered with.  A
store-conditional is carried out when there is a lock of its context around it, and uses the lock up.
A write clears the locks of the other contexts it touches, and a load-linked clears all locks it
touches, so that no two locks in the list share an address (`Tracked.apart`).  Each lock stands for a
load-linked of the past (`Tracked.since`).
-/

namespace GuardianCouncil.CacheBlk

open History List

/-! ## Requests and locks -/

/-- A request for some bytes of the block. -/
structure Request where
  contextId : Int
  paddr : Nat
  size : Nat
  size_pos : 0 < size := by decide
  end_le : paddr + size ≤ 2 ^ 64 := by decide

namespace Request

variable (req : Request)

/-- The last address, `req_low + req->getSize() - 1` in 64-bit arithmetic. -/
def high : Nat := (req.paddr + req.size + (2 ^ 64 - 1)) % 2 ^ 64

def addrs : Finset Nat := Finset.Ico req.paddr (req.paddr + req.size)

theorem high_add_one : req.high + 1 = req.paddr + req.size := by
  have hpos := req.size_pos
  have hend := req.end_le
  rw [high, show req.paddr + req.size + (2 ^ 64 - 1) = req.paddr + req.size - 1 + 2 ^ 64 by omega,
    Nat.add_mod_right, Nat.mod_eq_of_lt (by omega)]
  omega

end Request

/-- `CacheBlk::Lock`. -/
structure Lock where
  contextId : Int
  lowAddr : Nat
  highAddr : Nat
deriving DecidableEq

namespace Lock

variable (l : Lock) (req : Request)

def ofRequest : Lock := ⟨req.contextId, req.paddr, req.high⟩

/-- The request is of the same context, and within the lock. -/
def matchesRequest : Bool :=
  l.contextId = req.contextId ∧ req.paddr ≥ l.lowAddr ∧ req.high ≤ l.highAddr

/-- The request touches the lock. -/
def intersects : Bool :=
  req.paddr ≤ l.highAddr ∧ req.high ≥ l.lowAddr

end Lock

/-! ## The list of locks -/

def trackLoadLocked (lockList : List Lock) (req : Request) : List Lock :=
  .ofRequest req :: lockList.filter fun l => !l.intersects req

def clearLoadLocks (lockList : List Lock) (req : Request) : List Lock :=
  lockList.filter fun l => !(l.intersects req && l.contextId ≠ req.contextId)

/-- What `checkWrite` answers, in the extra data of a store-conditional's request too. -/
structure WriteCheck where
  allowed : Bool
  extraData : Option Nat
  lockList : List Lock
deriving DecidableEq

def checkWrite (lockList : List Lock) (isLLSC : Bool) (req : Request) : WriteCheck :=
  if !isLLSC && lockList.isEmpty then ⟨true, none, lockList⟩
  else if isLLSC then
    let success := lockList.any (·.matchesRequest req)
    ⟨success, some (if success then 1 else 0),
      clearLoadLocks (lockList.eraseP (·.matchesRequest req)) req⟩
  else ⟨true, none, clearLoadLocks lockList req⟩

/-! ## Accesses -/

/-- What may happen to a block. -/
inductive Access
  | loadLinked (req : Request)
  | store (req : Request)
  | storeCond (req : Request)
  /-- The block leaves the cache. -/
  | invalidate

/-- An access, and whether it was allowed. -/
abbrev Event := Access × Bool

/-- The locks after an access, and whether it is allowed. -/
def access (lockList : List Lock) : Access → Bool × List Lock
  | .loadLinked req => (true, trackLoadLocked lockList req)
  | .store req =>
    let check := checkWrite lockList false req
    (check.allowed, check.lockList)
  | .storeCond req =>
    let check := checkWrite lockList true req
    (check.allowed, check.lockList)
  | .invalidate => (true, [])

/-- One more access. -/
def next (s : List Lock × List Event) (a : Access) : List Lock × List Event :=
  let (allowed, lockList) := access s.1 a
  (lockList, s.2 ++ [(a, allowed)])

/-- The locks after some accesses to a new block, and what happened. -/
def run (accesses : List Access) : List Lock × List Event := accesses.foldl next ([], [])

/-! ## What locks stand for -/

/-- The event ends the reservation of a load-linked: another context writes to its range, or a
store-conditional there succeeds. -/
def Breaks (ll : Request) : Event → Prop
  | (.store req, allowed) =>
    allowed ∧ req.contextId ≠ ll.contextId ∧ ¬ Disjoint req.addrs ll.addrs
  | (.storeCond req, allowed) => allowed ∧ ¬ Disjoint req.addrs ll.addrs
  | _ => False

/-- The context has load-linked the range, and nothing has ended the reservation since. -/
def Reserved (ll : Request) (h : List Event) : Prop :=
  Since (fun e => e.1 = .loadLinked ll) (fun e => ¬ Breaks ll e) h

/-- Do the locks share an address? -/
def Lock.Meets (l l' : Lock) : Prop := l'.lowAddr ≤ l.highAddr ∧ l.lowAddr ≤ l'.highAddr

section

variable {l l' : Lock} {req ll : Request}

theorem Lock.Meets.symm (h : l.Meets l') : l'.Meets l := ⟨h.2, h.1⟩

theorem Lock.intersects_iff : l.intersects req = true ↔ l.Meets (.ofRequest req) := by
  rw [intersects, decide_eq_true_eq]
  exact Iff.rfl

theorem meets_ofRequest_iff : (Lock.ofRequest ll).Meets (.ofRequest req) ↔ ¬ Disjoint req.addrs ll.addrs := by
  have hreq := req.high_add_one
  have hll := ll.high_add_one
  have hpos := req.size_pos
  have hpos' := ll.size_pos
  rw [Request.addrs, Request.addrs, Finset.disjoint_left]
  show req.paddr ≤ ll.high ∧ ll.paddr ≤ req.high ↔ _
  simp only [Finset.mem_Ico]
  constructor
  · intro h hd
    have := hd (a := max req.paddr ll.paddr)
    omega
  · intro h
    by_contra hnot
    exact h fun _ _ => by omega

theorem Lock.matchesRequest_ofRequest_iff : (Lock.ofRequest ll).matchesRequest req = true ↔
    ll.contextId = req.contextId ∧ req.addrs ⊆ ll.addrs := by
  have hreq := req.high_add_one
  have hll := ll.high_add_one
  have hpos := req.size_pos
  rw [Lock.matchesRequest, decide_eq_true_eq, Request.addrs, Request.addrs, Finset.Ico_subset_Ico_iff (by omega)]
  show _ ∧ req.paddr ≥ ll.paddr ∧ req.high ≤ ll.high ↔ _
  refine and_congr_right fun _ => ?_
  omega

/-- What touches a request inside a lock touches the lock. -/
theorem Lock.meets_of_matches (hma : l.matchesRequest req = true) (hm : l'.Meets (.ofRequest req)) : l'.Meets l := by
  rw [Lock.matchesRequest, decide_eq_true_eq] at hma
  have h₁ : req.paddr ≤ l'.highAddr := hm.1
  have h₂ : l'.lowAddr ≤ req.high := hm.2
  exact ⟨by omega, by omega⟩

end

/-- The locks are apart, and each stands for a reservation. -/
structure Tracked (s : List Lock × List Event) : Prop where
  apart : s.1.Pairwise fun l l' => ¬ l.Meets l'
  since : ∀ l ∈ s.1, ∃ ll, l = .ofRequest ll ∧ Reserved ll s.2

namespace Tracked

variable {s : List Lock × List Event} {lockList : List Lock} {a : Access} {allowed : Bool}
  {req : Request}

/-- Some locks remain, whose reservations the event does not end. -/
theorem keep (h : Tracked s) (hsub : lockList.Sublist s.1)
    (hke : ∀ ll, .ofRequest ll ∈ lockList → ¬ Breaks ll (a, allowed)) : Tracked (lockList, s.2 ++ [(a, allowed)]) where
  apart := h.apart.sublist hsub
  since l hl := by
    obtain ⟨ll, rfl, hsi⟩ := h.since l (hsub.subset hl)
    exact ⟨ll, rfl, since_concat.2 (.inr ⟨hsi, hke ll hl⟩)⟩

theorem loadLinked (h : Tracked s) (req : Request) : Tracked (next s (.loadLinked req)) := by
  have hke : Tracked (s.1.filter (fun l => !l.intersects req), s.2 ++ [(.loadLinked req, true)]) :=
    h.keep filter_sublist fun _ _ hbr => hbr
  refine ⟨pairwise_cons.2 ⟨fun l hl hm => ?_, hke.apart⟩, fun l hl => ?_⟩
  · have hnot := (mem_filter.1 hl).2
    rw [Lock.intersects_iff.2 hm.symm] at hnot
    cases hnot
  · rcases mem_cons.1 hl with rfl | hl
    · exact ⟨req, rfl, since_concat.2 (.inl rfl)⟩
    · exact hke.since l hl

/-- A lock that is not cleared is of the same context, or is not touched. -/
theorem of_mem_clearLoadLocks {ll : Request} (hl : .ofRequest ll ∈ clearLoadLocks lockList req) :
    req.contextId = ll.contextId ∨ Disjoint req.addrs ll.addrs := by
  by_contra hnot
  push Not at hnot
  have hke := (mem_filter.1 hl).2
  rw [Lock.intersects_iff.2 (meets_ofRequest_iff.2 hnot.2)] at hke
  simp [Lock.ofRequest, Ne.symm hnot.1] at hke

theorem store (h : Tracked s) (req : Request) : Tracked (next s (.store req)) := by
  by_cases hem : s.1.isEmpty
  · have hnext : next s (.store req) = (s.1, s.2 ++ [(.store req, true)]) := by
      simp [next, access, checkWrite, hem]
    rw [hnext]
    refine h.keep (.refl _) fun ll hll => ?_
    rw [isEmpty_iff.1 hem] at hll
    exact absurd hll not_mem_nil
  · have hnext : next s (.store req) = (clearLoadLocks s.1 req, s.2 ++ [(.store req, true)]) := by
      simp [next, access, checkWrite, hem]
    rw [hnext]
    refine h.keep filter_sublist fun ll hll hbr => ?_
    rcases of_mem_clearLoadLocks hll with hctx | hd
    · exact hbr.2.1 hctx
    · exact hbr.2.2 hd

theorem storeCond (h : Tracked s) (req : Request) : Tracked (next s (.storeCond req)) := by
  have hnext : next s (.storeCond req) = (clearLoadLocks (s.1.eraseP (·.matchesRequest req)) req,
        s.2 ++ [(.storeCond req, s.1.any (·.matchesRequest req))]) := by
    simp [next, access, checkWrite]
  rw [hnext]
  refine h.keep (filter_sublist.trans eraseP_sublist) fun ll hll hbr => ?_
  obtain ⟨hal, hsh⟩ := hbr
  -- the lock that is used up is another one, and the request is inside it
  obtain ⟨l₀, hl₀, hma⟩ := any_eq_true.1 hal
  obtain ⟨l, l₁, l₂, -, hl, hsp, hera⟩ := exists_of_eraseP (p := (·.matchesRequest req)) hl₀ hma
  have hmem := (mem_filter.1 hll).1
  rw [hera, mem_append] at hmem
  have hm := Lock.meets_of_matches hl (meets_ofRequest_iff.2 hsh)
  have ha := h.apart
  rw [hsp, pairwise_append, pairwise_cons] at ha
  rcases hmem with hmem | hmem
  · exact ha.2.2 _ hmem l mem_cons_self hm
  · exact ha.2.1.1 _ hmem hm.symm

theorem invalidate (h : Tracked s) : Tracked (next s .invalidate) :=
  h.keep (nil_sublist _) fun _ hll => absurd hll not_mem_nil

theorem next (h : Tracked s) : ∀ a, Tracked (next s a)
  | .loadLinked req => h.loadLinked req
  | .store req => h.store req
  | .storeCond req => h.storeCond req
  | .invalidate => h.invalidate

end Tracked

/-- The locks of every run stand for reservations. -/
theorem tracked_run (accesses : List Access) : Tracked (run accesses) := by
  induction accesses using List.reverseRecOn with
  | nil => exact ⟨.nil, fun _ hl => absurd hl not_mem_nil⟩
  | append_singleton accesses a ih =>
    rw [run, foldl_append]
    exact ih.next a

/-- **Store-conditionals are safe.**  After any accesses, a store-conditional is allowed only if its
context has load-linked a range around it, and since then no other context has written to that range
and no store-conditional has succeeded there.  A plain store is always allowed. -/
theorem storeCond_safe (accesses : List Access) (req : Request) : ((access (run accesses).1 (.storeCond req)).1 = true →
      ∃ ll : Request, ll.contextId = req.contextId ∧ req.addrs ⊆ ll.addrs ∧ Reserved ll (run accesses).2) ∧
    (access (run accesses).1 (.store req)).1 = true := by
  constructor
  · intro ha
    have hany : (run accesses).1.any (·.matchesRequest req) = true := by
      simpa [access, checkWrite] using ha
    obtain ⟨l, hl, hm⟩ := any_eq_true.1 hany
    obtain ⟨ll, rfl, hre⟩ := (tracked_run accesses).since l hl
    obtain ⟨hctx, hsub⟩ := Lock.matchesRequest_ofRequest_iff.1 hm
    exact ⟨ll, hctx, hsub, hre⟩
  · by_cases hem : (run accesses).1.isEmpty <;> simp [access, checkWrite, hem]

/-- Another context writes next to the range, and the context itself writes into it. -/
theorem storeCond_safe_nearby : ∃ ll : Request, ll.contextId = 0 ∧ Finset.Ico 4 8 ⊆ ll.addrs ∧
    Reserved ll (run [.loadLinked ⟨0, 0, 8, by decide, by decide⟩,
      .store ⟨1, 8, 4, by decide, by decide⟩, .store ⟨0, 0, 4, by decide, by decide⟩]).2 :=
  (storeCond_safe _ ⟨0, 4, 4, by decide, by decide⟩).1 (by decide)

end GuardianCouncil.CacheBlk
