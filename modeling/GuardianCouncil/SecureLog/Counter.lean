import GuardianCouncil.Lib.Rotation
import GuardianCouncil.SecureLog.Blocker
import GuardianCouncil.SecureLog.Secmap

/-!
# Counter mode

The programs of a configuration have adjacent ranges of cores, and each has one counter, which counter mode
advances, blocker mode redirects and `map_before` only reads.  In a run of `map` and `map_before` every
counter stays in its own range, so what is added in either mode goes to a queue of the program.  A program
that uses counter mode only deals its events to its cores in turn.
-/

namespace GuardianCouncil.SecureLog

open Fallible Rotation List

/-- The programs of a configuration: numbers of cores and maps, on consecutive cores. -/
def programsOf : Int → List (Int × (InstType → Int)) → List SProgram
  | _, [] => []
  | start, (count, map) :: cfg =>
    { map, counter := start, corestart := start, coreend := start + count - 1 } ::
      programsOf (start + count) cfg

def coreTotal : List (Int × (InstType → Int)) → Int
  | [] => 0
  | (count, _) :: cfg => count + coreTotal cfg

theorem loadLoop_eq_ok {garbage : Nat → InstType → Int} : ∀ {fuel : Nat} {line : List Char} {f : Istream} {cores : Int}
    {ps : List SProgram} {filterb : InstType → Bool} {r : Loaded},
    loadLoop garbage fuel line f cores ps filterb = .ok r →
      ∃ cfg, r.programs = ps ++ programsOf cores cfg ∧ r.ready = cores + coreTotal cfg
  | 0, _, _, _, _, _, _, h => by cases h
  | fuel + 1, line, f, cores, ps, filterb, r, h => by
    rw [loadLoop] at h
    split at h
    · cases h
      exact ⟨[], (append_nil _).symm, (Int.add_zero _).symm⟩
    obtain ⟨sum, hsum, h⟩ := bind_eq_ok.1 h
    obtain ⟨coreend, hend, h⟩ := bind_eq_ok.1 h
    obtain ⟨next, hnext, h⟩ := bind_eq_ok.1 h
    obtain ⟨⟨map, filterb'⟩, -, h⟩ := bind_eq_ok.1 h
    obtain ⟨cfg, hps, hre⟩ := loadLoop_eq_ok h
    rw [intAdd_eq_ok] at hsum hend hnext
    have hcount : coreend = cores + atoi line - 1 := by omega
    have hstart : next = cores + atoi line := by omega
    refine ⟨(atoi line, map) :: cfg, ?_, ?_⟩
    · rw [hps, programsOf, append_assoc, hcount, hstart]
      rfl
    · rw [hre, coreTotal]
      omega

/-- What `init` reads is a configuration. -/
theorem initFrom_eq_ok {garbage : Nat → InstType → Int} {fuel : Nat} {text : List Char} {st : State}
    (h : initFrom garbage fuel text = .ok st) :
    ∃ cfg filterb, st = init (programsOf 0 cfg) filterb (coreTotal cfg) := by
  obtain ⟨r, hr, hst⟩ := bind_eq_ok.1 h
  cases hst
  obtain ⟨cfg, hps, hre⟩ := loadLoop_eq_ok hr
  rw [hps, hre, Int.zero_add]
  exact ⟨cfg, _, rfl⟩

/-- The program uses counter mode only: its configuration line has only `0` and `-`. -/
def CounterOnly (p : SProgram) : Prop := ∀ it, p.map it = 0 ∨ p.map it = -1

def SProgram.coreCount (p : SProgram) : ℕ := (p.coreend - p.corestart + 1).toNat

/-- The queues that are handed an event between two states. -/
def sentTo (s : Entry) (st st' : State) : List Int :=
  ((finRange NUMBEROFCHECKERCORES).filter fun q =>
    { s with sender := 0 } ∈ (st'.handed q).drop (st.handed q).length).map fun q => (q.val : Int)

/-- Where `map` sends an event, for each program that wants it. -/
def rounds (s : Entry) : List SProgram → State → List (List (List Int))
  | [], _ => []
  | p :: ps, st =>
    match mapProgram advanceCounter s p st with
    | .error _ => []
    | .ok (_, st') => (if p.map s.insttype = 0 then [] else [sentTo s st st']) :: rounds s ps st'

/-- A program hands an event to one queue, and in blocker mode perhaps a `Block` behind it. -/
structure GoesTo (p : SProgram) (s : Entry) (q : Queue) (st st' : State) : Prop where
  slot : st'.queues q (st.queueEnd q) = { s with sender := 0 }
  handed : ∃ rest, st'.handed q = st.handed q ++ { s with sender := 0 } :: rest ∧
    st'.queueSize q = st.queueSize q + (rest.length + 1) ∧ (∀ e ∈ rest, e.insttype = .block) ∧
    (p.map s.insttype = -1 → rest = [])
  others : ∀ q' ≠ q, st'.queues q' = st.queues q' ∧ st'.handed q' = st.handed q'

/-- What is so of a program at any time, with the queues its events have been sent to. -/
structure Turn (p : SProgram) (sent : List (List Int)) : Prop where
  bounded : Bounded p
  /-- Counter and blocker mode add to one queue of the program's own. -/
  own : ∀ advance s st p' st', mapProgram advance s p st = .ok (p', st') → p.map s.insttype < 0 →
    ∃ q : Queue, p.counter = q.val ∧ Owns p q ∧ GoesTo p s q st st'
  /-- The counter is the number of a queue. -/
  inRange : ∃ q : Queue, p.counter = q.val
  turns : CounterOnly p → ∀ i, ∀ h : i < sent.length, sent[i] = [p.corestart + (i % p.coreCount : ℕ)]
  even : CounterOnly p → ∀ q q' : Queue, Owns p q → Owns p q' → sent.count [(q.val : Int)] ≤ sent.count [(q'.val : Int)] + 1

/-! ## One program -/

/-- The state of a program's rotation. -/
structure Dealing (p : SProgram) (sent : List (List Int)) : Prop where
  bounded : Bounded p
  first : 0 ≤ p.corestart
  last : p.coreend < NUMBEROFCHECKERCORES
  deals : CounterOnly p → Deals (fun i => [p.corestart + (i : Int)]) p.coreCount sent ∧
    p.counter = p.corestart + (sent.length % p.coreCount : ℕ)

variable {p p' : SProgram} {sent : List (List Int)} {advance : SProgram → SProgram} {now : UInt64} {s : Entry}
  {size : Queue → Nat} {calls : List Call} {q : Queue} {st st' : State}

theorem goesTo_added (hadd : addAll 0 [⟨s, q⟩] st = .ok st') : GoesTo p s q st st' := by
  obtain ⟨-, hst⟩ := addAll_cons_eq_ok.1 hadd
  cases hst
  exact ⟨by simp, ⟨[], by simp⟩, fun q' hq' => by simp [hq']⟩

theorem GoesTo.sentTo_eq (h : GoesTo p s q st st') : sentTo s st st' = [(q.val : Int)] := by
  have hfilter : ((List.finRange NUMBEROFCHECKERCORES).filter fun q' =>
      { s with sender := 0 } ∈ (st'.handed q').drop (st.handed q').length) =
      (List.finRange NUMBEROFCHECKERCORES).filter (· = q) := by
    refine List.filter_congr fun q' _ => decide_eq_decide.2 ⟨fun hmem => ?_, ?_⟩
    · by_contra hne
      rw [(h.others q' hne).2, List.drop_length] at hmem
      cases hmem
    · rintro rfl
      obtain ⟨rest, hh, -⟩ := h.handed
      rw [hh, List.drop_left]
      exact List.mem_cons_self
  rw [sentTo, hfilter, List.filter_eq, List.count_eq_one_of_mem (List.nodup_finRange _) (List.mem_finRange q)]
  rfl

section

variable (h : Dealing p sent)
include h

theorem Dealing.sameShape (hsh : SameShape p p') (hb : Bounded p')
    {sent' : List (List Int)} (hd : CounterOnly p → Deals (fun i => [p.corestart + (i : Int)]) p.coreCount sent' ∧
        p'.counter = p.corestart + (sent'.length % p.coreCount : ℕ)) : Dealing p' sent' := by
  have hco : p'.coreCount = p.coreCount := by
    rw [SProgram.coreCount, SProgram.coreCount, hsh.coreend, hsh.corestart]
  refine ⟨hb, hsh.corestart ▸ h.first, hsh.coreend ▸ h.last, fun hp => ?_⟩
  rw [hsh.corestart, hco]
  exact hd fun it => hsh.map ▸ hp it

/-- The rotation wraps around at the end of the range. -/
theorem Dealing.advanceCounter (hco : p.counter = p.corestart + (sent.length % p.coreCount : ℕ)) :
    (advanceCounter p).counter = p.corestart + ((sent.length + 1) % p.coreCount : ℕ) := by
  obtain ⟨hlo, hhi⟩ := h.bounded
  have hn : (p.coreCount : Int) = p.coreend - p.corestart + 1 := by
    rw [SProgram.coreCount]
    omega
  have hmod : (sent.length + 1) % p.coreCount = (sent.length % p.coreCount + 1) % p.coreCount := by
    rw [Nat.mod_add_mod]
  rw [SecureLog.advanceCounter, hmod]
  dsimp only
  split
  · rename_i hwr
    have hla : sent.length % p.coreCount + 1 = p.coreCount := by omega
    rw [hla, Nat.mod_self, Int.natCast_zero, Int.add_zero]
  · rename_i hnext
    rw [Nat.mod_eq_of_lt (by omega)]
    omega

/-- `map` of one program. -/
theorem Dealing.map (hm : mapProgram SecureLog.advanceCounter s p st = .ok (p', st')) :
    Dealing p' (sent ++ if p.map s.insttype = 0 then [] else [sentTo s st st']) := by
  obtain ⟨calls, hst, hadd⟩ := mapProgram_cases hm
  refine h.sameShape (hst.sameShape rotates_advanceCounter) (hst.bounded rotates_advanceCounter h.bounded) fun hp => ?_
  obtain ⟨hd, hco⟩ := h.deals hp
  cases hst with
  | unmapped hmap => simpa [hmap] using ⟨hd, hco⟩
  | fixed hmap | stay hmap | switch hmap =>
    have hp := hp s.insttype
    omega
  | counter hmap hq =>
    have hgo : GoesTo p s _ st st' := goesTo_added hadd
    rw [if_neg (by omega), hgo.sentTo_eq, ← hq, length_append, length_singleton]
    refine ⟨?_, h.advanceCounter hco⟩
    rw [hco]
    exact hd.concat

/-- `map_before` of one program. -/
theorem Dealing.mapBefore (hst : ProgramStep id now s size p calls p') : Dealing p' sent := by
  refine h.sameShape (hst.sameShape rotates_id) (hst.bounded rotates_id h.bounded) fun hp => ?_
  cases hst with
  | unmapped hmap => exact h.deals hp
  | counter hmap hq => exact h.deals hp
  | fixed hmap | stay hmap | switch hmap =>
    have hp := hp s.insttype
    omega

end

/-! ## All programs -/

variable {ps ps' ps₀ : List SProgram} {sents : List (List (List Int))}

end GuardianCouncil.SecureLog
