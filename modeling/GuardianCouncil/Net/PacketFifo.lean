import GuardianCouncil.Lib.Fallible
import Mathlib.Algebra.GroupWithZero.Nat
import Mathlib.Data.List.Chain

/-!
# The packet FIFO of the network devices

The FIFO counts bytes.  A packet removed from the middle does not free its bytes: they go to the packet
before it as slack, and are freed with that one.  Packets are numbered as they come in, and the number of
packets before or behind a position is computed as the difference of two of these numbers.  The bytes are
accounted for in every run; the counts are right only as long as no removal leaves a gap in the numbers.
-/

namespace GuardianCouncil.Net

open Fallible List

structure PacketFifoEntry where
  /-- `packet->length`. -/
  length : BitVec 32
  number : BitVec 64
  slack : BitVec 32 := 0

structure PacketFifo where
  fifo : List PacketFifoEntry := []
  counter : BitVec 64 := 0
  maxsize : BitVec 32
  size : BitVec 32 := 0
  reserved : BitVec 32 := 0

inductive Fault where
  | assertion
  /-- An iterator that is dereferenced or erased at the end of the list. -/
  | atEnd
  | panic
deriving DecidableEq

inductive Op where
  | reserve (len : BitVec 32)
  | push (length : BitVec 32)
  | pop
  | clear
  /-- The iterator is given by its position. -/
  | remove (i : ℕ)

namespace PacketFifo

variable {s s' : PacketFifo} {i : ℕ}

def avail (s : PacketFifo) : BitVec 32 := s.maxsize - s.size - s.reserved

def empty (s : PacketFifo) : Bool := s.size ≤ 0

def reserve (s : PacketFifo) (len : BitVec 32) : Except Fault (BitVec 32 × PacketFifo) :=
  if s.avail < len then .error .assertion
  else .ok (s.reserved + len, { s with reserved := s.reserved + len })

def push (s : PacketFifo) (length : BitVec 32) : Except Fault (Bool × PacketFifo) :=
  if length = 0 then .error .assertion
  else if length < s.reserved then .error .assertion
  else if s.avail < length - s.reserved then .ok (false, s)
  else
    let entry : PacketFifoEntry := { length, number := s.counter }
    .ok (true, { s with fifo := s.fifo ++ [entry], counter := s.counter + 1, size := s.size + length, reserved := 0 })

def pop (s : PacketFifo) : Except Fault PacketFifo :=
  if s.empty then .ok s
  else match s.fifo with
    | [] => .error .atEnd
    | entry :: fifo => .ok { s with fifo, size := s.size - entry.length - entry.slack }

def clear (s : PacketFifo) : PacketFifo := { s with fifo := [], size := 0, reserved := 0 }

/-- The entry takes over the bytes of the one behind it. -/
def passOn (e prev : PacketFifoEntry) : PacketFifoEntry := { prev with slack := prev.slack + e.length + e.slack }

def remove (s : PacketFifo) (i : ℕ) : Except Fault PacketFifo :=
  match s.fifo[i]? with
  | none => .error .atEnd
  | some e =>
    .ok (if i = 0 then { s with fifo := s.fifo.eraseIdx i, size := s.size - e.length - e.slack }
      else { s with fifo := (s.fifo.modify (i - 1) (passOn e)).eraseIdx i })

/-- The difference of two numbers, converted to `int`. -/
def distance (a b : Option PacketFifoEntry) : ℤ :=
  match a, b with
  | some a, some b => ((a.number - b.number).setWidth 32).toInt
  | _, _ => 0

def countPacketsBefore (s : PacketFifo) (i : ℕ) : ℤ := distance s.fifo[i]? s.fifo[0]?

def countPacketsAfter (s : PacketFifo) (i : ℕ) : ℤ := distance s.fifo.getLast? s.fifo[i]?

def check (s : PacketFifo) : Except Fault Unit :=
  if s.fifo.foldl (fun total e => total + (e.length + e.slack)) 0 = s.size then .ok () else .error .panic

def step (s : PacketFifo) : Op → Except Fault PacketFifo
  | .reserve len => return (← s.reserve len).2
  | .push length => return (← s.push length).2
  | .pop => s.pop
  | .clear => .ok s.clear
  | .remove i => s.remove i

/-! ## The bytes -/

def total : List PacketFifoEntry → ℕ
  | [] => 0
  | e :: l => e.length.toNat + e.slack.toNat + total l

/-- What the FIFO's accounts say in every state. -/
structure Accounts (s : PacketFifo) : Prop where
  size : s.size.toNat = total s.fifo
  room : s.size.toNat + s.reserved.toNat ≤ s.maxsize.toNat
  length : ∀ e ∈ s.fifo, 0 < e.length.toNat

theorem total_append (l l' : List PacketFifoEntry) : total (l ++ l') = total l + total l' := by
  induction l with
  | nil => simp [total]
  | cons e l ih => simp only [cons_append, total, ih]; omega

/-- A removal from the middle moves bytes and frees none. -/
theorem total_passOn {e : PacketFifoEntry} {l : List PacketFifoEntry} (he : l[i + 1]? = some e)
    (hl : total l < 2 ^ 32) : total ((l.modify i (passOn e)).eraseIdx (i + 1)) = total l := by
  induction i generalizing l with
  | zero =>
    rcases l with _ | ⟨p, _ | ⟨q, l⟩⟩
    · cases he
    · cases he
    · cases he
      simp only [total, passOn, modify_zero_cons, eraseIdx_cons_succ, eraseIdx_cons_zero] at hl ⊢
      simp only [BitVec.toNat_add]
      omega
  | succ i ih =>
    rcases l with _ | ⟨p, l⟩
    · cases he
    · simp only [modify_succ_cons, eraseIdx_cons_succ, total] at hl ⊢
      rw [ih he (by omega)]

theorem total_le_of_length (hl : ∀ e ∈ s.fifo, 0 < e.length.toNat) : s.fifo.length ≤ total s.fifo := by
  generalize s.fifo = l at hl
  induction l with
  | nil => exact le_rfl
  | cons e l ih =>
    have he := hl e mem_cons_self
    have hrest := ih fun x hx => hl x (mem_cons_of_mem e hx)
    simp only [total, length_cons]
    omega

/-! ## The numbers -/

/-- Every stored packet has the number behind that of the packet before it. -/
def Numbered (s : PacketFifo) : Prop := (s.fifo.map (·.number)).IsChain (· + 1 = ·)

/-- The step leaves no gap in the numbers: the packet removed is the first or the last one, and behind a
last packet that was removed nothing is pushed, unless there is no room for it. -/
def Keeps (s : PacketFifo) : Op → Prop
  | .push length => ¬ s.avail < length - s.reserved → ∀ e ∈ s.fifo.getLast?, e.number + 1 = s.counter
  | .remove i => i = 0 ∨ i + 1 = s.fifo.length
  | _ => True

instance (s : PacketFifo) : (a : Op) → Decidable (Keeps s a)
  | .push _ => inferInstanceAs (Decidable (¬ _ → ∀ e ∈ _, _))
  | .remove _ => inferInstanceAs (Decidable (_ ∨ _))
  | .reserve _ | .pop | .clear => isTrue trivial

/-- Passing bytes on changes nothing but the slack. -/
theorem map_modify_passOn {α : Type} {f : PacketFifoEntry → α} {e : PacketFifoEntry} (hf : ∀ p, f (passOn e p) = f p)
    (l : List PacketFifoEntry) : (l.modify i (passOn e)).map f = l.map f := by
  induction i generalizing l <;> cases l <;> simp_all

theorem number_eq (hn : s.Numbered) {e e₀ : PacketFifoEntry} (h0 : s.fifo[0]? = some e₀) (he : s.fifo[i]? = some e) :
    e.number = e₀.number + BitVec.ofNat 64 i := by
  induction i generalizing e with
  | zero =>
    cases h0.symm.trans he
    simp
  | succ i ih =>
    obtain ⟨hi, rfl⟩ := List.getElem?_eq_some_iff.1 he
    have hnext := isChain_iff_getElem.1 hn i (by simpa using hi)
    simp only [getElem_map] at hnext
    rw [← hnext, ih (getElem?_eq_getElem (by omega)), BitVec.add_assoc, BitVec.ofNat_add]
    rfl

/-! ## One step -/

theorem step_keeps {a : Op} (hs : s.Accounts) (h : s.step a = .ok s') :
    s'.Accounts ∧ s'.maxsize = s.maxsize ∧ (s.Keeps a → s.Numbered → s'.Numbered) := by
  obtain ⟨hsize, hroom, hlen⟩ := hs
  cases a with
  | reserve len =>
    obtain ⟨_, hr, ⟨⟩⟩ := bind_eq_ok.1 h
    obtain ⟨hav, ⟨⟩⟩ := check_eq_ok.1 hr
    exact ⟨⟨hsize, by simp only [avail] at *; bv_omega, hlen⟩, rfl, fun _ hn => hn⟩
  | push length =>
    obtain ⟨_, hp, ⟨⟩⟩ := bind_eq_ok.1 h
    obtain ⟨h0, hp⟩ := check_eq_ok.1 hp
    obtain ⟨hres, hp⟩ := check_eq_ok.1 hp
    split at hp <;> cases hp
    · exact ⟨⟨hsize, hroom, hlen⟩, rfl, fun _ hn => hn⟩
    · rename_i hfull
      refine ⟨⟨?_, by simp only [avail] at *; bv_omega, ?_⟩, rfl, fun hk hn => ?_⟩
      · simp only [total_append, total, ← hsize, avail] at *
        bv_omega
      · simp only [mem_append, mem_singleton]
        rintro e (he | rfl)
        · exact hlen e he
        · bv_omega
      · simp only [Numbered, map_append]
        refine isChain_append.2 ⟨hn, isChain_singleton _, ?_⟩
        simpa using hk ‹_›
  | pop =>
    rw [step, pop] at h
    split at h
    · cases h
      exact ⟨⟨hsize, hroom, hlen⟩, rfl, fun _ hn => hn⟩
    split at h
    · cases h
    rename_i e l hl
    cases h
    simp only [hl, total] at hsize
    refine ⟨⟨by bv_omega, by bv_omega, fun x hx => hlen x (hl ▸ mem_cons_of_mem e hx)⟩, rfl, fun _ hn => ?_⟩
    simp only [Numbered, hl] at hn
    exact hn.tail
  | clear =>
    cases h
    exact ⟨⟨rfl, by simp [clear], by simp [clear]⟩, rfl, fun _ _ => isChain_nil⟩
  | remove i =>
    rw [step, remove] at h
    split at h <;> cases h
    rename_i e he
    split
    · subst i
      obtain ⟨l, hl⟩ : ∃ l, s.fifo = e :: l := by cases hf : s.fifo <;> simp_all
      simp only [hl, total] at hsize
      refine ⟨⟨?_, by bv_omega, fun x hx => hlen x (mem_of_mem_eraseIdx hx)⟩, rfl, fun _ hn => ?_⟩
      · simp only [hl, eraseIdx_cons_zero]
        bv_omega
      · simp only [Numbered, hl] at hn ⊢
        exact hn.tail
    · obtain ⟨i, rfl⟩ := Nat.exists_eq_succ_of_ne_zero ‹i ≠ 0›
      refine ⟨⟨hsize.trans (total_passOn he (by bv_omega)).symm, hroom, fun x hx => ?_⟩, rfl, fun hk hn => ?_⟩
      · have hx := mem_map_of_mem (f := PacketFifoEntry.length) (mem_of_mem_eraseIdx hx)
        rw [map_modify_passOn fun _ => rfl] at hx
        obtain ⟨p, hp, hpx⟩ := mem_map.1 hx
        exact hpx ▸ hlen p hp
      · have hlast : i + 1 + 1 = s.fifo.length := by simpa [Keeps] using hk
        rw [Numbered, eraseIdx_eq_take_drop_succ, drop_of_length_le (by simp [hlast]), append_nil, map_take,
          map_modify_passOn fun _ => rfl]
        exact hn.take (i + 1)

/-! ## Whole runs -/

theorem foldl_total (l : List PacketFifoEntry) (t : BitVec 32) :
    l.foldl (fun total e => total + (e.length + e.slack)) t = t + BitVec.ofNat 32 (total l) := by
  induction l generalizing t with
  | nil => simp [total]
  | cons e l ih =>
    rw [foldl_cons, ih, total]
    bv_omega

theorem Accounts.check_eq_ok (hs : s.Accounts) : s.check = .ok () := by
  rw [check, foldl_total, ← hs.size, if_pos (by simp)]

theorem Accounts.empty_iff (hs : s.Accounts) : s.empty ↔ s.fifo = [] := by
  have hlen := total_le_of_length hs.length
  have hsize := hs.size
  rw [empty, decide_eq_true_eq]
  constructor
  · intro h
    exact length_eq_zero_iff.1 (by bv_omega)
  · intro h
    rw [h] at hsize
    exact BitVec.le_of_eq (BitVec.eq_of_toNat_eq hsize)

theorem distance_eq {a b : PacketFifoEntry} {n : ℕ} (hab : a.number = b.number + BitVec.ofNat 64 n) (hn : n < 2 ^ 31) :
    distance (some a) (some b) = n := by
  have hsub : (a.number - b.number).setWidth 32 = BitVec.ofNat 32 n := by
    rw [hab, BitVec.add_comm, BitVec.add_sub_cancel]
    bv_omega
  rw [distance, hsub, BitVec.toInt_eq_toNat_cond, BitVec.toNat_ofNat]
  omega

theorem Numbered.counts (hn : s.Numbered) (hl : s.fifo.length < 2 ^ 31) (hi : i < s.fifo.length) :
    s.countPacketsBefore i = i ∧ s.countPacketsAfter i = s.fifo.length - 1 - i := by
  have hat : ∀ {j}, (hj : j < s.fifo.length) → s.fifo[j]? = some s.fifo[j] := getElem?_eq_getElem
  have h0 := hat (show 0 < s.fifo.length by omega)
  have hni := number_eq hn h0 (hat hi)
  have hnl := number_eq hn h0 (hat (show s.fifo.length - 1 < s.fifo.length by omega))
  constructor
  · rw [countPacketsBefore, h0, hat hi]
    exact distance_eq hni (by omega)
  · rw [countPacketsAfter, getLast?_eq_getElem?, hat hi, hat (show s.fifo.length - 1 < s.fifo.length by omega),
      @distance_eq _ _ (s.fifo.length - 1 - i)]
    · omega
    · rw [hnl, hni, BitVec.add_assoc, ← BitVec.ofNat_add, Nat.add_sub_cancel' (by omega)]
    · omega

/-- **The accounts and the counts of the FIFO.**  In every run the bytes are accounted for, and in every run
whose steps leave no gap in the numbers the two counts are right as well. -/
theorem accounts_and_counts {ok : PacketFifo → Op → Prop} {max : BitVec 32} (h : Reaches step ok { maxsize := max } s) :
    s.size.toNat = total s.fifo ∧ s.size.toNat + s.reserved.toNat ≤ s.maxsize.toNat ∧ s.check = .ok () ∧
      (s.empty ↔ s.fifo = []) ∧
      ((∀ s a, ok s a → s.Keeps a) → 0 ≤ max.toInt → ∀ i < s.fifo.length,
        s.countPacketsBefore i = i ∧ s.countPacketsAfter i = s.fifo.length - 1 - i) := by
  obtain ⟨hs, rfl, hn⟩ : s.Accounts ∧ s.maxsize = max ∧ ((∀ s a, ok s a → s.Keeps a) → s.Numbered) := by
    induction h with
    | refl => exact ⟨⟨rfl, by simp, by simp⟩, rfl, fun _ => isChain_nil⟩
    | step _ hok ha ih =>
      obtain ⟨hacc, hmax, hn⟩ := step_keeps ih.1 ha
      exact ⟨hacc, hmax.trans ih.2.1, fun hk => hn (hk _ _ hok) (ih.2.2 hk)⟩
  refine ⟨hs.size, hs.room, hs.check_eq_ok, hs.empty_iff, fun hk hmax i hi => (hn hk).counts ?_ hi⟩
  have hlen := total_le_of_length hs.length
  have hsize := hs.size
  have hroom := hs.room
  rw [BitVec.toInt_eq_toNat_cond] at hmax
  omega

/-- Three packets, of which the first is removed. -/
theorem accounts_and_counts_two : ∃ s, Reaches step Keeps { maxsize := 100 } s ∧ s.fifo.length = 2 ∧
    s.countPacketsBefore 1 = 1 ∧ s.countPacketsAfter 0 = 1 := by
  obtain ⟨s, hr, hl⟩ := exists_reaches step Keeps { maxsize := 100 }
    [.reserve 5, .push 10, .push 20, .push 30, .remove 0] (·.fifo.length = 2) (by decide +kernel)
  have hcount := (accounts_and_counts hr).2.2.2.2 (fun _ _ h => h) (by decide)
  exact ⟨s, hr, hl, (hcount 1 (by omega)).1, by simpa [hl] using (hcount 0 (by omega)).2⟩

/-- With the second of three packets removed, the last is still counted as having two before it. -/
theorem counts_removed : ∃ s, Reaches step (fun _ _ => True) { maxsize := 100 } s ∧ s.fifo.length = 2 ∧
    s.countPacketsBefore 1 = 2 ∧ s.countPacketsAfter 0 = 2 :=
  exists_reaches step _ _ [.push 10, .push 20, .push 30, .remove 1]
    (fun s => s.fifo.length = 2 ∧ s.countPacketsBefore 1 = 2 ∧ s.countPacketsAfter 0 = 2) (by decide +kernel)

end PacketFifo

end GuardianCouncil.Net
