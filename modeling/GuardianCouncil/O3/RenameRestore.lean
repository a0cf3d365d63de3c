import GuardianCouncil.Lib.MoveToFront
import GuardianCouncil.O3.RenamePool

/-!
# A squash restores the rename map

Between the renaming of an instruction and its retirement, its changes stand in the history buffer.
So the buffer consists of the changes of the instructions on their way to commit, the youngest
first, and behind them of changes of retired instructions that have not been removed yet
(`Thread.InStep`).  Taking back the changes of all instructions on their way leads to the map of the
commit stage, and taking back those of the instructions younger than a number leads to the map as it
was right after the youngest of the others had been renamed.  This relies
on the order of the calls (`Thread.Allows`).
-/

namespace GuardianCouncil.O3

open Undo List Function Fallible

variable {cfg : Config}

/-! ## The order of the calls -/

/-- The order in which the pipeline calls the rename stage for a thread. -/
def Thread.Allows (th : Thread cfg) : Op → Prop
  | .rename inst => ∀ snapshot ∈ th.renamed, snapshot.seqNum < inst.seqNum
  | .commitHead => True
  | .removeFromHistory n => ∃ m ∈ th.lastCommitted, n ≤ m
  | .squash n => ∀ m ∈ th.lastCommitted, m ≤ n

/-- The map right after the youngest instruction of a list not younger than `n` was renamed, or the
map of the beginning. -/
def mapAfter (map₀ : RenameMap cfg) (snapshots : List (Snapshot cfg)) (n : Nat) : RenameMap cfg :=
  match snapshots.find? fun snapshot => snapshot.seqNum ≤ n with
  | some snapshot => snapshot.renameMap
  | none => map₀

/-! ## Lists from young to old -/

section

variable {α : Type*} {f : α → Nat} {l : List α} {n : Nat}

/-- Of a list from young to old, the elements not younger than `n` are a suffix. -/
theorem filter_eq_dropWhile (h : l.Pairwise fun a b => f b < f a) :
    (l.filter fun a => f a ≤ n) = l.dropWhile fun a => n < f a := by
  have hm : l.Pairwise fun a b => decide (n < f b) = true → decide (n < f a) = true :=
    h.imp fun hlt hn => decide_eq_true ((of_decide_eq_true hn).trans hlt)
  rw [(MoveToFront.while_eq_filter hm).2]
  exact filter_congr fun a _ => by rw [← decide_not, decide_eq_decide, not_lt]

variable {p : α → Bool}

theorem takeWhile_of_forall_not (h : ∀ a ∈ l, ¬ p a) : l.takeWhile p = [] := by
  rcases l with - | ⟨a, l⟩
  · rfl
  · exact takeWhile_cons_of_neg (h a mem_cons_self)

theorem dropWhile_of_forall_not (h : ∀ a ∈ l, ¬ p a) : l.dropWhile p = l := by
  rcases l with - | ⟨a, l⟩
  · rfl
  · exact dropWhile_cons_of_neg (h a mem_cons_self)

end

/-! ## The history buffer and the instructions -/

/-- The entries of an instruction in the history buffer. -/
def DynInst.entries (inst : DynInst) : List RenameHistory :=
  inst.dests.reverse.map fun dest => ⟨dest, inst.seqNum⟩

/-- The entries of instructions, the youngest first. -/
def entriesOf (insts : List DynInst) : List RenameHistory := insts.flatMap DynInst.entries

/-- The changes of an instruction, the newest first. -/
def DynInst.changes (cfg : Config) (inst : DynInst) : List (Change cfg.isa.ArchReg Nat) :=
  O3.changes cfg inst.dests.reverse

/-- The changes of instructions, the youngest first. -/
def changesOf (cfg : Config) (insts : List DynInst) : List (Change cfg.isa.ArchReg Nat) :=
  insts.flatMap (DynInst.changes cfg)

section

variable {insts insts' : List DynInst} {inst : DynInst} {entry : RenameHistory} {n : Nat}

theorem instSeqNum_of_mem_entries (h : entry ∈ inst.entries) : entry.instSeqNum = inst.seqNum := by
  obtain ⟨dest, -, rfl⟩ := mem_map.1 h
  rfl

theorem exists_of_mem_entriesOf (h : entry ∈ entriesOf insts) : ∃ inst ∈ insts, entry.instSeqNum = inst.seqNum := by
  obtain ⟨inst, hin, hent⟩ := mem_flatMap.1 h
  exact ⟨inst, hin, instSeqNum_of_mem_entries hent⟩

theorem changes_entriesOf (insts : List DynInst) : changes cfg (destsOf (entriesOf insts)) = changesOf cfg insts := by
  induction insts with
  | nil => rfl
  | cons inst insts ih =>
    have hd : destsOf inst.entries = inst.dests.reverse := by
      rw [destsOf, DynInst.entries, map_map]
      exact map_id' _
    rw [entriesOf, flatMap_cons, destsOf, map_append, changes_append]
    exact congrArg₂ (· ++ ·) (congrArg (changes cfg) hd) ih

/-- The entries younger than a number are those of the instructions younger than it. -/
theorem takeWhile_entriesOf {old : List RenameHistory} (hin : insts.Pairwise fun i j => j.seqNum < i.seqNum)
    (hold : ∀ entry ∈ old, ¬ decide (n < entry.instSeqNum)) :
    ((entriesOf insts ++ old).takeWhile fun entry => n < entry.instSeqNum) =
        entriesOf (insts.takeWhile fun inst => n < inst.seqNum) ∧
      ((entriesOf insts ++ old).dropWhile fun entry => n < entry.instSeqNum) =
        entriesOf (insts.dropWhile fun inst => n < inst.seqNum) ++ old := by
  induction insts with
  | nil => exact ⟨takeWhile_of_forall_not hold, dropWhile_of_forall_not hold⟩
  | cons inst insts ih =>
    obtain ⟨hf, hin⟩ := pairwise_cons.1 hin
    obtain ⟨hta, hd⟩ := ih hin
    by_cases hn : n < inst.seqNum
    · have hy : ∀ entry ∈ inst.entries, decide (n < entry.instSeqNum) = true := by
        intro entry hent
        rw [instSeqNum_of_mem_entries hent]
        exact decide_eq_true hn
      rw [takeWhile_cons_of_pos (by simpa using hn), dropWhile_cons_of_pos (by simpa using hn), entriesOf, flatMap_cons,
        append_assoc, takeWhile_append_of_pos hy, dropWhile_append_of_pos hy]
      exact ⟨congrArg _ hta, hd⟩
    · -- All entries are of instructions not younger than this one.
      have hall : ∀ entry ∈ entriesOf (inst :: insts) ++ old, ¬ decide (n < entry.instSeqNum) := by
        intro entry hent
        rcases mem_append.1 hent with hent | hent
        · obtain ⟨i, hi, heq⟩ := exists_of_mem_entriesOf hent
          rw [heq, decide_eq_true_eq]
          rcases mem_cons.1 hi with rfl | hi
          · exact hn
          · have hlt := hf i hi
            omega
        · exact hold entry hent
      rw [takeWhile_cons_of_neg (by simpa using hn), dropWhile_cons_of_neg (by simpa using hn)]
      exact ⟨takeWhile_of_forall_not hall, dropWhile_of_forall_not hall⟩

end

/-! ## The invariant -/

/-- The map of the youngest of the snapshots, or the map of the beginning. -/
def latest (map₀ : RenameMap cfg) (kept : List (Snapshot cfg)) : RenameMap cfg :=
  (kept.head?.map Snapshot.renameMap).getD map₀

/-- The snapshots of instructions, the youngest first, follow from a map by taking the instructions'
changes back; what is left are snapshots of committed instructions. -/
def Snapshots (map₀ : RenameMap cfg) (last : Option Nat) : RenameMap cfg → List DynInst → List (Snapshot cfg) → Prop
  | map, [], kept => map = latest map₀ kept ∧ ∀ snapshot ∈ kept, ∃ m ∈ last, snapshot.seqNum ≤ m
  | map, inst :: insts, kept => ∃ kept', kept = ⟨inst.seqNum, map⟩ :: kept' ∧
      Snapshots map₀ last (undo map (inst.changes cfg)) insts kept'

/-- What holds of a thread whose operations come in order. -/
structure Thread.InStep (map₀ : RenameMap cfg) (th : Thread cfg) : Prop where
  /-- The history buffer holds the changes of the instructions, and older ones. -/
  history : ∃ old, th.historyBuffer = entriesOf th.rob.reverse ++ old ∧
    ∀ entry ∈ old, ∃ m ∈ th.lastCommitted, entry.instSeqNum ≤ m
  /-- The instructions are in the order of their numbers. -/
  ordered : th.rob.reverse.Pairwise fun i j => j.seqNum < i.seqNum
  /-- They are younger than the committed ones. -/
  young : ∀ inst ∈ th.rob, ∀ m ∈ th.lastCommitted, m < inst.seqNum
  /-- Taking their changes back leads to the map of the commit stage. -/
  commit : undo th.renameMap (changesOf cfg th.rob.reverse) = th.commitRenameMap
  /-- And to the snapshots on the way. -/
  snapshots : Snapshots map₀ th.lastCommitted th.renameMap th.rob.reverse th.kept
  /-- Instructions are renamed in the order of their numbers. -/
  keptOrdered : th.kept.Pairwise fun k l => l.seqNum < k.seqNum
  keptRenamed : ∀ snapshot ∈ th.kept, ∃ s ∈ th.renamed, s.seqNum = snapshot.seqNum
  robRenamed : ∀ inst ∈ th.rob, ∃ s ∈ th.renamed, s.seqNum = inst.seqNum
  lastRenamed : ∀ m ∈ th.lastCommitted, ∃ s ∈ th.renamed, s.seqNum = m

section

variable {map₀ map : RenameMap cfg} {last : Option Nat} {insts : List DynInst}
  {kept : List (Snapshot cfg)} {n : Nat}

theorem Snapshots.eq_latest (h : Snapshots map₀ last map insts kept) : map = latest map₀ kept := by
  rcases insts with - | ⟨inst, insts⟩
  · exact h.1
  · obtain ⟨kept', rfl, -⟩ := h
    rfl

/-- Leaving out the instructions younger than a number. -/
theorem Snapshots.dropWhile (h : Snapshots map₀ last map insts kept) (hla : ∀ m ∈ last, m ≤ n) : Snapshots map₀ last
      (undo map (changesOf cfg (insts.takeWhile fun inst => n < inst.seqNum)))
      (insts.dropWhile fun inst => n < inst.seqNum) (kept.dropWhile fun snapshot => n < snapshot.seqNum) := by
  induction insts generalizing map kept with
  | nil =>
    have hke : ∀ snapshot ∈ kept, ¬ decide (n < snapshot.seqNum) := by
      intro snapshot hmem
      obtain ⟨m, hm, hle⟩ := h.2 snapshot hmem
      simpa using hle.trans (hla m hm)
    rw [dropWhile_of_forall_not hke]
    exact h
  | cons inst insts ih =>
    by_cases hn : n < inst.seqNum
    · obtain ⟨kept', rfl, h'⟩ := h
      rw [takeWhile_cons_of_pos (by simpa using hn), dropWhile_cons_of_pos (by simpa using hn),
        dropWhile_cons_of_pos (by simpa using hn), changesOf, flatMap_cons, undo_append]
      exact ih h'
    · have hke : (kept.dropWhile fun snapshot => n < snapshot.seqNum) = kept := by
        obtain ⟨kept', rfl, -⟩ := h
        rw [dropWhile_cons_of_neg (by simpa using hn)]
      rw [takeWhile_cons_of_neg (by simpa using hn), dropWhile_cons_of_neg (by simpa using hn), hke]
      exact h

/-- The oldest instruction commits. -/
theorem Snapshots.commit {head : DynInst} (h : Snapshots map₀ last map (insts ++ [head]) kept)
    (hh : ∀ m ∈ last, m < head.seqNum) : Snapshots map₀ (some head.seqNum) map insts kept := by
  induction insts generalizing map kept with
  | nil =>
    obtain ⟨kept', rfl, -, hke⟩ := h
    refine ⟨rfl, fun snapshot hmem => ⟨_, rfl, ?_⟩⟩
    rcases mem_cons.1 hmem with rfl | hmem
    · exact le_rfl
    · obtain ⟨m, hm, hle⟩ := hke snapshot hmem
      exact hle.trans (hh m hm).le
  | cons inst insts ih =>
    obtain ⟨kept', hke, h'⟩ := h
    exact ⟨kept', hke, ih h'⟩

theorem mapAfter_eq_latest :
    mapAfter map₀ kept n = latest map₀ (kept.dropWhile fun snapshot => n < snapshot.seqNum) := by
  rw [mapAfter]
  induction kept with
  | nil => rfl
  | cons snapshot kept ih =>
    by_cases hn : n < snapshot.seqNum
    · rw [find?_cons_of_neg (by simpa using hn), dropWhile_cons_of_pos (by simpa using hn)]
      exact ih
    · rw [find?_cons_of_pos (by simpa using hn), dropWhile_cons_of_neg (by simpa using hn)]
      rfl

end

/-! ## Operations in order -/

section

variable {map₀ : RenameMap cfg} {th : Thread cfg} {freeList : UnifiedFreeList} {n : Nat}

variable {st : Rename cfg}

section

variable (h : th.InStep map₀)
include h

theorem Thread.InStep.rename {inst : Inst} (ha : th.Allows (.rename inst)) {dests : List Renamed}
    (hh : st.historyBuffer = dests.reverse.map (fun dest => ⟨dest, inst.seqNum⟩) ++ th.historyBuffer)
    (hun : undo st.renameMap (changes cfg dests.reverse) = th.renameMap) : Thread.InStep map₀
      { th.setRename st with
        rob := th.rob ++ [⟨inst.seqNum, dests⟩]
        renamed := ⟨inst.seqNum, st.renameMap⟩ :: th.renamed
        kept := ⟨inst.seqNum, st.renameMap⟩ :: th.kept } := by
  have hnew : ∀ k, (∃ s ∈ th.renamed, s.seqNum = k) → k < inst.seqNum := by
    rintro k ⟨s, hs, rfl⟩
    exact ha s hs
  have hrev : (th.rob ++ [(⟨inst.seqNum, dests⟩ : DynInst)]).reverse =
      ⟨inst.seqNum, dests⟩ :: th.rob.reverse := reverse_append
  refine ⟨?_, ?_, ?_, ?_, ?_, ?_, ?_, ?_, ?_⟩
  · obtain ⟨old, hold, hco⟩ := h.history
    refine ⟨old, ?_, hco⟩
    dsimp only [setRename]
    rw [hh, hold, hrev, ← append_assoc]
    rfl
  · dsimp only [setRename]
    rw [hrev]
    refine pairwise_cons.2 ⟨fun i hi => ?_, h.ordered⟩
    exact hnew _ (h.robRenamed i (mem_reverse.1 hi))
  · intro i hi m hm
    rcases mem_append.1 hi with hi | hi
    · exact h.young i hi m hm
    · cases mem_singleton.1 hi
      exact hnew _ (h.lastRenamed m hm)
  · dsimp only [setRename]
    rw [hrev, changesOf, flatMap_cons, undo_append]
    have hba : undo st.renameMap (DynInst.changes cfg ⟨inst.seqNum, dests⟩) = th.renameMap := hun
    rw [hba]
    exact h.commit
  · dsimp only [setRename]
    rw [hrev]
    refine ⟨th.kept, rfl, ?_⟩
    have hba : undo st.renameMap (DynInst.changes cfg ⟨inst.seqNum, dests⟩) = th.renameMap := hun
    rw [hba]
    exact h.snapshots
  · exact pairwise_cons.2 ⟨fun k hk => hnew _ (h.keptRenamed k hk), h.keptOrdered⟩
  · intro snapshot hmem
    rcases mem_cons.1 hmem with rfl | hmem
    · exact ⟨_, mem_cons_self, rfl⟩
    · obtain ⟨s, hs, heq⟩ := h.keptRenamed snapshot hmem
      exact ⟨s, mem_cons_of_mem _ hs, heq⟩
  · intro i hi
    rcases mem_append.1 hi with hi | hi
    · obtain ⟨s, hs, heq⟩ := h.robRenamed i hi
      exact ⟨s, mem_cons_of_mem _ hs, heq⟩
    · cases mem_singleton.1 hi
      exact ⟨_, mem_cons_self, rfl⟩
  · intro m hm
    obtain ⟨s, hs, heq⟩ := h.lastRenamed m hm
    exact ⟨s, mem_cons_of_mem _ hs, heq⟩

/-- The oldest instruction retires: its changes enter the map of the commit stage. -/
theorem Thread.InStep.commitHead {head : DynInst} {rest : List DynInst}
    (hrob : th.rob = head :: rest) (hlea : LeadsTo th.renameMap (changes cfg (destsOf th.historyBuffer))) :
    Thread.InStep map₀
      { th with
        commitRenameMap := redo th.commitRenameMap (changes cfg head.dests.reverse)
        rob := rest
        lastCommitted := some head.seqNum } := by
  have hrev : th.rob.reverse = rest.reverse ++ [head] := by rw [hrob, reverse_cons]
  have hh : head ∈ th.rob := hrob ▸ mem_cons_self
  have hre : ∀ i ∈ rest, i ∈ th.rob := fun i hi => hrob ▸ mem_cons_of_mem _ hi
  have hy : ∀ m ∈ th.lastCommitted, m < head.seqNum := h.young head hh
  have ho := h.ordered
  rw [hrev, pairwise_append] at ho
  obtain ⟨old, hold, hco⟩ := h.history
  have hch : changesOf cfg th.rob.reverse = changesOf cfg rest.reverse ++ changes cfg head.dests.reverse := by
    rw [hrev, changesOf, flatMap_append, flatMap_singleton]
    rfl
  refine ⟨⟨head.entries ++ old, ?_, ?_⟩, ho.1, ?_, ?_, ?_, h.keptOrdered, h.keptRenamed,
    fun i hi => h.robRenamed i (hre i hi), ?_⟩
  · rw [hold, hrev, entriesOf, flatMap_append, flatMap_singleton, append_assoc]
    rfl
  · intro entry hent
    refine ⟨head.seqNum, rfl, ?_⟩
    rcases mem_append.1 hent with hent | hent
    · exact (instSeqNum_of_mem_entries hent).le
    · obtain ⟨m, hm, hle⟩ := hco entry hent
      exact hle.trans (hy m hm).le
  · rintro i hi m ⟨rfl⟩
    exact ho.2.2 i (mem_reverse.2 hi) head mem_cons_self
  · -- The changes of the other instructions are taken back to the map before them.
    rw [hold, destsOf, map_append, changes_append] at hlea
    have hf : changes cfg (List.map RenameHistory.toRenamed (entriesOf th.rob.reverse)) =
        changesOf cfg rest.reverse ++ changes cfg head.dests.reverse :=
      (changes_entriesOf _).trans hch
    rw [hf, append_assoc] at hlea
    have hba := (leadsTo_append.1 hlea.undo).1.redo_undo
    rw [← undo_append, ← hch, h.commit] at hba
    exact hba.symm
  · have hsn := h.snapshots
    rw [hrev] at hsn
    exact hsn.commit hy
  · rintro m ⟨rfl⟩
    exact h.robRenamed head hh

/-- Committed instructions are removed from the history buffer. -/
theorem Thread.InStep.removeFromHistory (ha : th.Allows (.removeFromHistory n))
    (hh : st.historyBuffer = (th.historyBuffer.reverse.dropWhile fun entry => entry.instSeqNum ≤ n).reverse)
    (hmap : st.renameMap = th.renameMap) : (th.setRename st).InStep map₀ := by
  obtain ⟨m, hm, hn⟩ := ha
  obtain ⟨old, hold, hco⟩ := h.history
  refine ⟨?_, h.ordered, h.young, ?_, ?_, h.keptOrdered, h.keptRenamed, h.robRenamed, h.lastRenamed⟩
  · -- No entry of an instruction on its way is removed.
    have hy : ((entriesOf th.rob.reverse).reverse.dropWhile fun entry =>
        entry.instSeqNum ≤ n) = (entriesOf th.rob.reverse).reverse := by
      refine dropWhile_of_forall_not fun entry hent => ?_
      obtain ⟨i, hi, heq⟩ := exists_of_mem_entriesOf (mem_reverse.1 hent)
      have hlt := h.young i (mem_reverse.1 hi) m hm
      rw [heq, decide_eq_true_eq]
      omega
    refine ⟨(old.reverse.dropWhile fun entry => entry.instSeqNum ≤ n).reverse, ?_, ?_⟩
    · dsimp only [setRename]
      rw [hh, hold, reverse_append, dropWhile_append, hy]
      split_ifs with hem
      · rw [isEmpty_iff.1 hem, reverse_reverse, reverse_nil, append_nil]
      · rw [reverse_append, reverse_reverse]
    · intro entry hent
      refine hco entry (mem_reverse.1 ?_)
      exact (dropWhile_suffix _).subset (mem_reverse.1 hent)
  · rw [setRename, hmap]
    exact h.commit
  · rw [setRename, hmap]
    exact h.snapshots

/-- The instructions younger than a number are squashed. -/
theorem Thread.InStep.squash (ha : th.Allows (.squash n))
    (hh : st.historyBuffer = th.historyBuffer.dropWhile fun entry => n < entry.instSeqNum)
    (hmap : st.renameMap = undo th.renameMap (changes cfg
      (destsOf (th.historyBuffer.takeWhile fun entry => n < entry.instSeqNum)))) :
    st.renameMap = mapAfter map₀ th.kept n ∧ Thread.InStep map₀
        { th.setRename st with
          rob := th.rob.filter fun inst => inst.seqNum ≤ n
          kept := th.kept.filter fun snapshot => snapshot.seqNum ≤ n } := by
  obtain ⟨old, hold, hco⟩ := h.history
  have hle : ∀ entry ∈ old, ¬ decide (n < entry.instSeqNum) := by
    intro entry hent
    obtain ⟨m, hm, hle⟩ := hco entry hent
    simpa using hle.trans (ha m hm)
  obtain ⟨hta, hd⟩ := takeWhile_entriesOf h.ordered hle
  rw [hold, hta, changes_entriesOf] at hmap
  have hrev : (th.rob.filter fun inst => inst.seqNum ≤ n).reverse =
      th.rob.reverse.dropWhile fun inst => n < inst.seqNum := by
    rw [← filter_reverse, filter_eq_dropWhile h.ordered]
  have hsn := h.snapshots.dropWhile ha
  rw [← hmap] at hsn
  refine ⟨?_, ⟨old, ?_, hco⟩, ?_, ?_, ?_, ?_, ?_, ?_, ?_, h.lastRenamed⟩
  · rw [mapAfter_eq_latest]
    exact hsn.eq_latest
  · dsimp only [setRename]
    rw [hh, hold, hd, hrev]
  · dsimp only [setRename]
    rw [hrev]
    exact h.ordered.sublist (dropWhile_sublist _)
  · exact fun i hi => h.young i (mem_of_mem_filter hi)
  · dsimp only [setRename]
    rw [hrev, hmap, ← undo_append, changesOf, changesOf, ← flatMap_append, takeWhile_append_dropWhile]
    exact h.commit
  · dsimp only [setRename]
    rw [hrev, filter_eq_dropWhile h.keptOrdered]
    exact hsn
  · exact h.keptOrdered.filter _
  · exact fun k hk => h.keptRenamed k (mem_of_mem_filter hk)
  · exact fun i hi => h.robRenamed i (mem_of_mem_filter hi)

end

end

/-! ## Whole runs -/

section

variable {s₀ s : State cfg}

/-- The core with the order of the calls. -/
def State.Allows (s : State cfg) (op : Fin cfg.threads × Op) : Prop := (s.thread op.1).Allows op.2

theorem inStep_init (h : Bound (bindOrder cfg) s) (tid : Fin cfg.threads) :
    (s.thread tid).InStep (s.thread tid).renameMap := by
  obtain ⟨hh, hrob, hla, hre, hke⟩ := h.idle tid
  refine ⟨⟨[], ?_, by simp⟩, ?_, ?_, ?_, ?_, ?_, ?_, ?_, ?_⟩
  · rw [hh, hrob]
    rfl
  · rw [hrob]
    exact List.Pairwise.nil
  · simp [hrob]
  · rw [hrob]
    funext r
    exact (h.commit (tid, r) (mem_bindOrder _)).symm
  · rw [hrob, hke]
    exact ⟨rfl, by simp⟩
  · rw [hke]
    exact List.Pairwise.nil
  · simp [hke]
  · simp [hrob]
  · simp [hla]

/-- An operation that is in order keeps its thread in step. -/
theorem State.Sound.inStep {tid : Fin cfg.threads} {map₀ : RenameMap cfg} (h : s.Sound)
    (hin : (s.thread tid).InStep map₀) {op : Op} (ha : (s.thread tid).Allows op)
    {freeList : UnifiedFreeList} {th : Thread cfg}
    (hop : (s.thread tid).exec s.freeList op = .ok (freeList, th)) : th.InStep map₀ := by
  rcases op with inst | - | n | n
  · obtain ⟨⟨dests, st⟩, hst, hop⟩ := bind_eq_ok.1 hop
    cases hop
    obtain ⟨-, -, hh, hun⟩ := (h.rename tid).renameDestRegs (h.nodup_stock tid) hst
    exact hin.rename ha hh hun
  · rw [Thread.exec] at hop
    split at hop
    · cases hop
    rename_i head rest hrob
    have hd := commitDests_eq_ok (h.rob tid head (hrob ▸ mem_cons_self)) (s.thread tid).commitRenameMap
    rw [hd, ok_bind] at hop
    cases hop
    exact hin.commitHead hrob (h.rename tid).leadsTo
  · obtain ⟨st, hst, hop⟩ := bind_eq_ok.1 hop
    cases hop
    obtain ⟨st', hst', -, hh, hmap⟩ := (h.rename tid).removeFromHistory (n := n)
    cases hst.symm.trans hst'
    exact hin.removeFromHistory ha hh hmap
  · obtain ⟨st, hst, hop⟩ := bind_eq_ok.1 hop
    cases hop
    obtain ⟨st', hst', -, hh, hmap⟩ := (h.rename tid).doSquash (n := n)
    cases hst.symm.trans hst'
    exact (hin.squash ha hh hmap).2

/-- Every thread stays in step. -/
theorem inStep_of_reaches (h₀ : init cfg = .ok s₀) (h : Reaches exec State.Allows s₀ s)
    (tid : Fin cfg.threads) : (s.thread tid).InStep (s₀.thread tid).renameMap := by
  obtain ⟨s₁, hs₁, hbo⟩ := init_eq_ok cfg
  cases h₀.symm.trans hs₁
  refine h.invariant (P := fun s => (s.thread tid).InStep (s₀.thread tid).renameMap)
    (inStep_init hbo tid) fun {s s' op} hs hin ha hex => ?_
  have hso := sound_of_reaches h₀ hs
  obtain ⟨⟨freeList, th⟩, hop, hex⟩ := bind_eq_ok.1 hex
  cases hex
  dsimp only
  rcases eq_or_ne tid op.1 with rfl | htid
  · rw [update_self]
    exact hso.inStep hin ha hop
  · rwa [update_of_ne htid]

/-- **A squash restores the rename map**: after any operations in order, undoing the instructions
younger than a number that is not older than the last committed one succeeds and leaves the map that
held right after the youngest other instruction that had not been squashed was renamed.  And when
every instruction has been committed or squashed, the map of the commit stage is the rename map. -/
theorem squash_restores (h₀ : init cfg = .ok s₀) (h : Reaches exec State.Allows s₀ s) (tid : Fin cfg.threads) :
    (∀ n, (∀ m ∈ (s.thread tid).lastCommitted, m ≤ n) → ∃ st, ((s.thread tid).view s.freeList).doSquash n = .ok st ∧
        st.renameMap = mapAfter (s₀.thread tid).renameMap (s.thread tid).kept n) ∧
    ((s.thread tid).rob = [] → (s.thread tid).commitRenameMap = (s.thread tid).renameMap) := by
  have hin := inStep_of_reaches h₀ h tid
  refine ⟨fun n hn => ?_, fun hrob => ?_⟩
  · obtain ⟨st, hst, -, hh, hmap⟩ := ((sound_of_reaches h₀ h).rename tid).doSquash (n := n)
    exact ⟨st, hst, (hin.squash hn hh hmap).1⟩
  · have hco := hin.commit
    rw [hrob] at hco
    exact hco.symm

end

instance decidableForallOption (o : Option Nat) (p : Nat → Prop) [DecidablePred p] : Decidable (∀ m ∈ o, p m) :=
  match o with
  | none => isTrue (by simp)
  | some m => decidable_of_iff (p m) (by simp)

instance Thread.decidableAllows (th : Thread cfg) : (op : Op) → Decidable (th.Allows op)
  | .rename _ => inferInstanceAs (Decidable (∀ snapshot ∈ th.renamed, _ < _))
  | .commitHead => isTrue trivial
  | .removeFromHistory n =>
    decidable_of_iff (¬ ∀ m ∈ th.lastCommitted, m < n) (by simp [Thread.Allows])
  | .squash n => inferInstanceAs (Decidable (∀ m ∈ th.lastCommitted, m ≤ n))

instance State.decidableAllows (s : State cfg) (op : Fin cfg.threads × Op) : Decidable (s.Allows op) :=
  Thread.decidableAllows (s.thread op.1) op.2

/-- Instruction 2 is squashed, and 3 is renamed in its place. -/
def mispredicted : List (Fin armDetailed.threads × Op) :=
  [(onlyThread, .rename ⟨1, [3, 1380], fun _ rel => rel⟩),
    (onlyThread, .rename ⟨2, [3, 34], fun _ rel => rel⟩), (onlyThread, .squash 1),
    (onlyThread, .rename ⟨3, [3, 3], fun _ rel => rel⟩), (onlyThread, .commitHead)]

theorem squash_restores_mispredicted : ∃ s₀ s, init armDetailed = .ok s₀ ∧ Reaches exec State.Allows s₀ s ∧
      ((s.thread onlyThread).kept.map Snapshot.seqNum = [3, 1] ∧ (s.thread onlyThread).lastCommitted = some 1) ∧
      ∃ st, ((s.thread onlyThread).view s.freeList).doSquash 2 = .ok st ∧ st.renameMap =
          mapAfter (s₀.thread onlyThread).renameMap (s.thread onlyThread).kept 2 := by
  obtain ⟨s₀, s, h₀, hs, hke, hla⟩ := exists_run State.Allows mispredicted
    (fun _ s => (s.thread onlyThread).kept.map Snapshot.seqNum = [3, 1] ∧
      (s.thread onlyThread).lastCommitted = some 1) (by decide +kernel)
  exact ⟨s₀, s, h₀, hs, ⟨hke, hla⟩, (squash_restores h₀ hs onlyThread).1 2 (by rw [hla]; decide)⟩

/-- When instruction 3 is squashed by the number before it, as `squashAll` does, the map is not the
one that held right after instruction 2 was renamed: that instruction had been squashed. -/
theorem squashed_not_restored : ∃ s₀ s, init armDetailed = .ok s₀ ∧ Reaches exec State.Allows s₀ s ∧
      (s.thread onlyThread).lastCommitted = some 1 ∧
      ∃ st, ((s.thread onlyThread).view s.freeList).doSquash 2 = .ok st ∧ st.renameMap ≠
          mapAfter (s₀.thread onlyThread).renameMap (s.thread onlyThread).renamed 2 := by
  obtain ⟨s₀, s, h₀, hs, hla, hmap⟩ := exists_run State.Allows mispredicted
    (fun s₀ s => (s.thread onlyThread).lastCommitted = some 1 ∧
      (match ((s.thread onlyThread).view s.freeList).doSquash 2 with
        | .ok st => decide (st.renameMap ⟨.int, 3, by decide⟩ ≠
            mapAfter (s₀.thread onlyThread).renameMap (s.thread onlyThread).renamed 2
              ⟨.int, 3, by decide⟩)
        | .error _ => false) = true) (by decide +kernel)
  split at hmap
  · rename_i st hst
    exact ⟨s₀, s, h₀, hs, hla, st, hst, fun heq => of_decide_eq_true hmap (by rw [heq])⟩
  · cases hmap

end GuardianCouncil.O3
