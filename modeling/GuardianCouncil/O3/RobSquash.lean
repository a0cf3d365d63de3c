import Mathlib.Algebra.Order.BigOperators.Group.Finset
import GuardianCouncil.O3.Rob

/-!
# A squash marks the younger instructions, and ends

While a thread is squashed, its list has three parts: instructions that are not younger than the squashed one, younger
ones that have not been marked yet, and younger ones that have been.  `squashIt` points at the last of the
second part.  `doSquash` moves the border by at most `squashWidth` (`doSquash_eq`), and is done once the second part is
empty.  Older instructions may retire in between, which shortens the first part only.
-/

namespace GuardianCouncil.Rob

open Function Fallible List ROB IterQueue

section

variable {older younger done : List DynInst}

/-- Moving the border between the younger instructions and those that are done. -/
def border (older younger done : List DynInst) (m : ℕ) : List DynInst :=
  older ++ younger.take (younger.length - m) ++ (younger.drop (younger.length - m)).map DynInst.squash ++ done

theorem border_zero : border older younger done 0 = older ++ younger ++ done := by
  simp [border]

theorem length_border (older younger done : List DynInst) (m : ℕ) :
    (border older younger done m).length = (older ++ younger ++ done).length := by
  simp [border]
  omega

/-- The last of the younger ones is marked. -/
theorem border_concat (older younger done : List DynInst) (x : DynInst) (m : ℕ) :
    border older (younger ++ [x]) done (m + 1) = border older younger (x.squash :: done) m := by
  have hlen : (younger ++ [x]).length - (m + 1) = younger.length - m := by simp
  rw [border, border, hlen, take_append_of_le_length (Nat.sub_le _ _), drop_append_of_le_length (Nat.sub_le _ _)]
  simp

/-- The loop reaches the head of the list. -/
def ReachesHead (n : ℕ) (older younger : List DynInst) : Prop := older = [] ∧ younger.length ≤ n
deriving Decidable

/-- The loop marks the last of the younger instructions, and stops at the one before them. -/
theorem squashLoop_eq (s n p : ℕ) (older younger done : List DynInst) (upd : Bool)
    (holder : ∀ x ∈ older, x.seqNum ≤ s) (hyo : ∀ x ∈ younger, s < x.seqNum) (hne : 0 < older.length + younger.length) :
    ∃ upd', squashLoop s n ⟨p, older ++ younger ++ done⟩ (some (p + (older.length + younger.length - 1))) upd =
      .ok ⟨⟨p, border older younger done n⟩,
        if ReachesHead n older younger then none else some (p + (older.length + (younger.length - n) - 1)),
        ReachesHead n older younger, upd'⟩ := by
  induction n generalizing younger done upd with
  | zero =>
    have hnot : ¬ ReachesHead 0 older younger := by
      rintro ⟨rfl, hle⟩
      rw [length_nil] at hne
      omega
    refine ⟨upd, ?_⟩
    rw [squashLoop, if_neg hnot, decide_eq_false hnot, border_zero, Nat.sub_zero]
  | succ n ih =>
    rcases eq_nil_or_concat' younger with rfl | ⟨younger, x, rfl⟩
    · -- nothing to mark: the last of the older instructions ends the loop
      rcases eq_nil_or_concat' older with rfl | ⟨older, x, rfl⟩
      · exact absurd hne (by simp)
      have hnot : ¬ ReachesHead (n + 1) (older ++ [x]) [] := fun h => absurd h.1 (by simp)
      have hli : older ++ [x] ++ [] ++ done = older ++ x :: done := by simp
      have hpos : (older ++ [x]).length + ([] : List DynInst).length - 1 = older.length := by simp
      refine ⟨upd, ?_⟩
      rw [hli, hpos, squashLoop, get?_append]
      dsimp only
      rw [if_neg (Nat.not_lt.2 (holder x (by simp))), if_neg hnot, decide_eq_false hnot]
      simp [border]
    · have hli : older ++ (younger ++ [x]) ++ done = (older ++ younger) ++ x :: done := by simp
      have hpos : older.length + (younger ++ [x]).length - 1 = (older ++ younger).length := by simp
      rw [hli, hpos, squashLoop, get?_append, border_concat]
      dsimp only
      rw [if_pos (hyo x (by simp)), modify_append]
      by_cases hnil : older ++ younger = []
      · -- the head of the list
        rw [if_pos ((first?_append_iff _ _ _ _).2 hnil)]
        obtain ⟨rfl, rfl⟩ := append_eq_nil_iff.1 hnil
        have hh : ReachesHead (n + 1) [] ([] ++ [x]) := ⟨rfl, by simp⟩
        rw [if_pos hh, decide_eq_true hh]
        exact ⟨upd, by simp [border]⟩
      · have hlen : 0 < older.length + younger.length := by
          rw [← length_append]
          exact length_pos_iff.2 hnil
        rw [if_neg (fun h => hnil ((first?_append_iff _ _ _ _).1 h)), length_append, Nat.add_sub_assoc hlen]
        have hiff : ReachesHead (n + 1) older (younger ++ [x]) ↔ ReachesHead n older younger := by
          simp [ReachesHead]
        have hsub : (younger ++ [x]).length - (n + 1) = younger.length - n := by simp
        simp only [hiff, hsub]
        exact ih younger (x.squash :: done) _ (fun y hy => hyo y (by simp [hy])) hlen

end

/-! ## One call -/

section

variable {rob : ROB} {tid : ThreadID} {p s : ℕ} {older younger done : List DynInst}

/-- The last instruction that is not done. -/
theorem get?_last (p : ℕ) (done : List DynInst) (holder : ∀ x ∈ older, x.seqNum ≤ s)
    (hy : ∀ x ∈ younger, s < x.seqNum) (hne : 0 < older.length + younger.length) :
    ∃ x, (⟨p, older ++ younger ++ done⟩ : IterQueue DynInst).get? (p + (older.length + younger.length - 1)) =
      some x ∧ (x.seqNum ≤ s ↔ younger = []) := by
  rcases eq_nil_or_concat' younger with rfl | ⟨younger, x, rfl⟩
  · rcases eq_nil_or_concat' older with rfl | ⟨older, x, rfl⟩
    · exact absurd hne (by simp)
    · refine ⟨x, ?_, by simpa using holder x (by simp)⟩
      simpa using get?_append p older x done
  · refine ⟨x, ?_, by simpa using hy x (by simp)⟩
    simpa using get?_append p (older ++ younger) x done

/-- A call marks the last `squashWidth` of the younger instructions, and is done if there are no others. -/
theorem doSquash_eq (hq : rob.instList tid = ⟨p, older ++ younger ++ done⟩)
    (hit : rob.squashIt tid = some (p + (older.length + younger.length - 1)))
    (holder : ∀ x ∈ older, x.seqNum ≤ rob.squashedSeqNum tid)
    (hyo : ∀ x ∈ younger, rob.squashedSeqNum tid < x.seqNum) (hne : 0 < older.length + younger.length) :
    ∃ tail, rob.doSquash tid = .ok { rob with
      instList := update rob.instList tid ⟨p, border older younger done rob.squashWidth⟩
      squashIt := update rob.squashIt tid (if younger.length ≤ rob.squashWidth then none
        else some (p + (older.length + (younger.length - rob.squashWidth) - 1)))
      doneSquashing := if younger.length ≤ rob.squashWidth then update rob.doneSquashing tid true
        else rob.doneSquashing
      tail := tail } := by
  obtain ⟨x, hx, hxs⟩ := get?_last p done holder hyo hne
  have hin : rob.squashInst tid = .ok x := by
    rw [squashInst, hit, hq, Option.bind_some, hx]
  rw [doSquash, if_neg (by rw [hit]; exact Option.some_ne_none _), hin, ok_bind]
  by_cases hlt : x.seqNum < rob.squashedSeqNum tid
  · cases hxs.1 hlt.le
    have hbo : border older [] done rob.squashWidth = older ++ [] ++ done := by simp [border]
    have hle : ([] : List DynInst).length ≤ rob.squashWidth := Nat.zero_le _
    refine ⟨rob.tail, ?_⟩
    rw [if_pos hlt, hbo, ← hq, update_eq_self]
    simp only [if_pos hle]
    rfl
  · obtain ⟨upd, hlo⟩ := squashLoop_eq (rob.squashedSeqNum tid) rob.squashWidth p older younger done false
      holder hyo hne
    rw [if_neg hlt, hq, hit, hlo, ok_bind]
    dsimp only
    by_cases hh : ReachesHead rob.squashWidth older younger
    · refine ⟨rob.tail, ?_⟩
      rw [if_pos (decide_eq_true hh), if_pos hh]
      simp only [if_pos hh.2, endSquash, update_idem]
    -- the instruction before the marked ones is older if all younger ones are marked
    rw [if_neg (by simpa using hh), if_neg hh]
    set left := younger.length - rob.squashWidth
    have hre : border older younger done rob.squashWidth =
        older ++ younger.take left ++ ((younger.drop left).map DynInst.squash ++ done) := by
      rw [border, append_assoc _ _ done]
    have hlen : (younger.take left).length = left := by simp [left]
    have hpos : 0 < older.length + (younger.take left).length := by
      by_contra hzero
      exact hh ⟨length_eq_zero_iff.1 (by omega), by omega⟩
    obtain ⟨y, hy, hys⟩ := get?_last p ((younger.drop left).map DynInst.squash ++ done) holder
      (fun y hy => hyo y (mem_of_mem_take hy)) hpos
    rw [← hre, hlen] at hy
    have hiff : y.seqNum ≤ rob.squashedSeqNum tid ↔ younger.length ≤ rob.squashWidth := by
      rw [hys, ← length_eq_zero_iff, hlen]
      omega
    rw [checkDone, squashInst]
    simp only [update_self, Option.bind_some, hy, ok_bind, hiff]
    by_cases hle : younger.length ≤ rob.squashWidth
    · simp only [if_pos hle, endSquash, update_idem]
      cases upd
      · exact ⟨_, rfl⟩
      · exact ⟨_, rfl⟩
    · simp only [if_neg hle]
      cases upd
      · exact ⟨_, rfl⟩
      · exact ⟨_, rfl⟩

end

/-! ## The squash as a whole -/

namespace ROB

variable (s : ℕ) (tid : ThreadID)

/-- The instruction at the head retires, if it is one that the squash leaves alone, and is ready. -/
def retireOlder (rob : ROB) : Except Fault ROB :=
  match rob.insts tid with
  | [] => .ok rob
  | inst :: _ => if inst.seqNum ≤ s ∧ inst.canCommit = true then rob.retireHead tid else .ok rob

def retireOlders : ℕ → ROB → Except Fault ROB
  | 0, rob => .ok rob
  | n + 1, rob => do
    let rob ← retireOlder s tid rob
    retireOlders n rob

end ROB

/-- The buffer is `rob₀` up to the marks on the instructions in `marked`, and up to older instructions of the
thread that have retired. -/
structure Parts (rob₀ rob : ROB) (tid : ThreadID) (s : ℕ) (older rest marked : List DynInst) : Prop where
  insts : rob.insts tid = older ++ rest ++ marked.map DynInst.squash
  older_le : ∀ x ∈ older, x.seqNum ≤ s
  lt_rest : ∀ x ∈ rest, s < x.seqNum
  lt_marked : ∀ x ∈ marked, s < x.seqNum
  width : rob.squashWidth = rob₀.squashWidth
  threads : rob.numThreads = rob₀.numThreads
  others : ∀ t, t ≠ tid → rob₀.SameThread rob t
  counted : rob.Counted

/-- The state after a call: the instructions in `rest` are still to be marked. -/
structure Marking (rob₀ rob : ROB) (tid : ThreadID) (s : ℕ) (older rest marked : List DynInst) : Prop extends
    Parts rob₀ rob tid s older rest marked where
  pending : rest ≠ [] → rob.squashIt tid =
    some ((rob.instList tid).popped + (older.length + rest.length - 1)) ∧ rob.squashedSeqNum tid = s
  finished : rob.doneSquashing tid = rest.isEmpty

section

variable {rob₀ rob : ROB} {tid : ThreadID} {s : ℕ} {older younger rest marked : List DynInst}

/-- A call takes instructions from the end of `rest`. -/
theorem Parts.doSquash (h : Parts rob₀ rob tid s older rest marked)
    (hit : rob.squashIt tid = some ((rob.instList tid).popped + (older.length + rest.length - 1)))
    (hnum : rob.squashedSeqNum tid = s) (hd : rob.doneSquashing tid = false) (hpos : 0 < older.length + rest.length) :
    ∃ rob', rob.doSquash tid = .ok rob' ∧ Marking rob₀ rob' tid s older (rest.take (rest.length - rob₀.squashWidth))
        (rest.drop (rest.length - rob₀.squashWidth) ++ marked) := by
  have hq : rob.instList tid = ⟨(rob.instList tid).popped, older ++ rest ++ marked.map DynInst.squash⟩ := by
    rw [← h.insts]
  obtain ⟨tail, heq⟩ := doSquash_eq hq hit (by rw [hnum]; exact h.older_le) (by rw [hnum]; exact h.lt_rest) hpos
  have hlen : (rest.take (rest.length - rob₀.squashWidth)).length = rest.length - rob₀.squashWidth := by simp
  have hleng : ∀ t, (update rob.instList tid ⟨(rob.instList tid).popped, border older rest
      (marked.map DynInst.squash) rob.squashWidth⟩ t).elems.length = (rob.insts t).length :=
    length_update (by rw [length_border, h.insts])
  refine ⟨_, heq, ?_⟩
  rw [h.width] at hleng ⊢
  refine ⟨⟨?_, h.older_le, fun x hx => h.lt_rest x (mem_of_mem_take hx), ?_, rfl, h.threads,
    fun t ht => ⟨?_, (h.others t ht).threadEntries, ?_, (h.others t ht).squashedSeqNum, ?_,
    (h.others t ht).robStatus⟩, ⟨fun t => (h.counted.entries t).trans (hleng t).symm,
    h.counted.total.trans (Finset.sum_congr rfl fun t _ => (hleng t).symm)⟩⟩, fun hne => ?_, ?_⟩
  · simp [ROB.insts, border]
  · intro x hx
    rcases mem_append.1 hx with hx | hx
    · exact h.lt_rest x (mem_of_mem_drop hx)
    · exact h.lt_marked x hx
  · dsimp only
    rw [update_of_ne ht]
    exact (h.others t ht).instList
  · dsimp only
    rw [update_of_ne ht]
    exact (h.others t ht).squashIt
  · dsimp only
    split
    · rw [update_of_ne ht]
      exact (h.others t ht).doneSquashing
    · exact (h.others t ht).doneSquashing
  · have hlt : ¬ rest.length ≤ rob₀.squashWidth := by
      intro hle
      exact hne (length_eq_zero_iff.1 (by omega))
    refine ⟨?_, hnum⟩
    dsimp only
    rw [update_self, update_self, if_neg hlt, hlen]
  · dsimp only
    by_cases hle : rest.length ≤ rob₀.squashWidth
    · rw [if_pos hle, update_self, Nat.sub_eq_zero_of_le hle]
      rfl
    · rw [if_neg hle, hd, eq_comm, isEmpty_eq_false_iff]
      exact length_pos_iff.1 (by omega)

/-- An instruction that retires is one of the older ones. -/
theorem Marking.retireOlder (h : Marking rob₀ rob tid s older rest marked) (htid : tid < rob₀.numThreads) :
    ∃ rob' n, rob.retireOlder s tid = .ok rob' ∧ Marking rob₀ rob' tid s (older.drop n) rest marked := by
  cases hl : rob.insts tid with
  | nil => exact ⟨rob, 0, by rw [ROB.retireOlder, hl], h⟩
  | cons inst l =>
    by_cases hre : inst.seqNum ≤ s ∧ inst.canCommit = true
    · obtain ⟨older, rfl⟩ : ∃ older', older = inst :: older' := by
        cases older with
        | cons x older =>
          have heq := hl.symm.trans h.insts
          rw [cons_append, cons_append, List.cons.injEq] at heq
          exact ⟨older, by rw [heq.1]⟩
        | nil =>
          -- the first instruction is younger
          have hmem : inst ∈ [] ++ rest ++ marked.map DynInst.squash := by
            rw [← h.insts, hl]
            exact mem_cons_self
          rw [nil_append, mem_append, mem_map] at hmem
          rcases hmem with hmem | ⟨x, hx, rfl⟩
          · exact absurd (h.lt_rest _ hmem) (Nat.not_lt.2 hre.1)
          · exact absurd (h.lt_marked x hx) (Nat.not_lt.2 hre.1)
      have hlt : tid < rob.numThreads := by rwa [h.threads]
      have hpos : 0 < rob.numInstsInROB := by
        have hle := Finset.single_le_sum (f := fun t => (rob.insts t).length) (fun _ _ => Nat.zero_le _)
          (Finset.mem_range.2 hlt)
        rw [← h.counted.total, hl, length_cons] at hle
        omega
      have hok : rob.retireHead tid = .ok (rob.retired tid) := retireHead_eq_ok_iff.2 ⟨hpos, ⟨inst, l, hl, hre.2⟩, rfl⟩
      refine ⟨_, 1, (by rw [ROB.retireOlder, hl]; exact (if_pos hre).trans hok), ?_⟩
      refine ⟨⟨?_, fun x hx => h.older_le x (mem_of_mem_tail hx), h.lt_rest, h.lt_marked, h.width,
        h.threads, fun t ht => ⟨?_, ?_, (h.others t ht).squashIt, (h.others t ht).squashedSeqNum,
        (h.others t ht).doneSquashing, (h.others t ht).robStatus⟩,
        h.counted.retired (by rw [hl]; exact cons_ne_nil _ _) hlt⟩, fun hne => ?_, h.finished⟩
      · rw [insts_retired, if_pos rfl, h.insts]
        rfl
      · exact (update_of_ne ht _ _).trans (h.others t ht).instList
      · rw [threadEntries_retired, if_neg ht]
        exact (h.others t ht).threadEntries
      · obtain ⟨hit, hnum⟩ := h.pending hne
        have hres : 0 < rest.length := length_pos_iff.2 hne
        refine ⟨hit.trans ?_, hnum⟩
        dsimp only [retired, updateHead]
        rw [update_self, pop, drop_one, tail_cons, length_cons]
        congr 1
        dsimp only
        omega
    · exact ⟨rob, 0, by rw [ROB.retireOlder, hl]; exact if_neg hre, h⟩

theorem Marking.retireOlders (htid : tid < rob₀.numThreads) (n : ℕ) :
    ∀ {rob : ROB} {older : List DynInst}, Marking rob₀ rob tid s older rest marked →
      ∃ rob' m, ROB.retireOlders s tid n rob = .ok rob' ∧ Marking rob₀ rob' tid s (older.drop m) rest marked := by
  induction n with
  | zero => exact fun {rob older} h => ⟨rob, 0, rfl, h⟩
  | succ n ih =>
    intro rob older h
    obtain ⟨rob', m, heq, h'⟩ := h.retireOlder htid
    obtain ⟨rob'', m', heq', h''⟩ := ih h'
    rw [drop_drop] at h''
    exact ⟨rob'', _, by rw [ROB.retireOlders, heq, ok_bind, heq'], h''⟩

end

end GuardianCouncil.Rob
