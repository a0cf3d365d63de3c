import Mathlib.Algebra.BigOperators.Fin
import Mathlib.Algebra.Order.BigOperators.Group.Finset
import GuardianCouncil.O3.RenameSteps

/-!
# No physical register is lost

At every moment the physical registers of a class are divided among the free list, the threads'
rename maps and the previous mappings in their history buffers.

An entry of the history buffer whose new and previous register are the same holds on to nothing:
such entries are written for the zero register, which stays in the map.
-/

namespace GuardianCouncil.O3

open Undo List Function Fallible

variable {cfg : Config}

/-! ## The constructor -/

section

variable {s : State cfg} {tid : Fin cfg.threads} {r : cfg.isa.ArchReg}
  {done todo : List (Fin cfg.threads × cfg.isa.ArchReg)}

/-- The rename maps of all threads. -/
def State.mapAt (s : State cfg) (k : Fin cfg.threads × cfg.isa.ArchReg) : Nat :=
  (s.thread k.1).renameMap k.2

/-- The commit stage's maps of all threads. -/
def State.commitAt (s : State cfg) (k : Fin cfg.threads × cfg.isa.ArchReg) : Nat :=
  (s.thread k.1).commitRenameMap k.2

/-- Nothing has happened in a thread yet. -/
structure Thread.Idle (th : Thread cfg) : Prop where
  history : th.historyBuffer = []
  rob : th.rob = []
  lastCommitted : th.lastCommitted = none
  renamed : th.renamed = []
  kept : th.kept = []

/-- Changing a map of one thread at one register changes the maps of all threads at one place. -/
theorem update_thread_map (f : Thread cfg → RenameMap cfg) {th : Fin cfg.threads → Thread cfg}
    {th' : Thread cfg} {reg : Nat} (h : f th' = update (f (th tid)) r reg) :
    (fun k : Fin cfg.threads × cfg.isa.ArchReg => f (update th tid th' k.1) k.2) =
      update (fun k => f (th k.1) k.2) (tid, r) reg := by
  funext k
  obtain ⟨tid', r'⟩ := k
  rcases eq_or_ne tid' tid with rfl | htid
  · rw [update_self, h]
    rcases eq_or_ne r' r with rfl | hr
    · rw [update_self, update_self]
    · rw [update_of_ne hr, update_of_ne fun hk => hr (Prod.ext_iff.1 hk).2]
  · rw [update_of_ne htid, update_of_ne fun hk => htid (Prod.ext_iff.1 hk).1]

theorem State.mapAt_setEntries (reg : Nat) : (s.setEntries tid r reg).mapAt = update s.mapAt (tid, r) reg :=
  update_thread_map Thread.renameMap rfl

theorem State.commitAt_setEntries (reg : Nat) :
    (s.setEntries tid r reg).commitAt = update s.commitAt (tid, r) reg :=
  update_thread_map Thread.commitRenameMap rfl

/-- The registers in `done` have been given physical ones: those of a class in the order of their
numbers, and the rest are still free. -/
structure Bound (done : List (Fin cfg.threads × cfg.isa.ArchReg)) (s : State cfg) : Prop where
  given : ∀ c, ((done.filter fun k => k.2.1 = c).map s.mapAt) ++ s.freeList c =
    List.range' (cfg.regFile.base c) (cfg.regFile.numPhysRegs c)
  commit : ∀ k ∈ done, s.commitAt k = s.mapAt k
  idle : ∀ tid, (s.thread tid).Idle

theorem bound_blank : Bound [] (State.blank cfg) where
  given := fun _ => rfl
  commit := by simp
  idle := fun _ => ⟨rfl, rfl, rfl, rfl, rfl⟩

theorem Bound.bindReg (h : Bound done s) (hnew : (tid, r) ∉ done)
    (hro : (done.filter fun k => k.2.1 = r.1).length < cfg.regFile.numPhysRegs r.1) :
    ∃ s', s.bindReg tid r = .ok s' ∧ Bound (done ++ [(tid, r)]) s' := by
  have hlen := congrArg List.length (h.given r.1)
  rw [length_append, length_map, length_range'] at hlen
  rcases hfree : s.freeList r.1 with - | ⟨reg, rest⟩
  · rw [hfree, length_nil] at hlen
    omega
  refine ⟨{ s.setEntries tid r reg with freeList := update s.freeList r.1 rest }, ?_, ?_, ?_, ?_⟩
  · rw [State.bindReg, UnifiedFreeList.getReg, hfree, ok_bind]
  · intro c
    show (List.map (s.setEntries tid r reg).mapAt _) ++ update s.freeList r.1 rest c = _
    have hsa : ∀ k ∈ done.filter fun k => k.2.1 = c,
        update s.mapAt (tid, r) reg k = s.mapAt k := fun k hk =>
      update_of_ne (ne_of_mem_of_not_mem (mem_of_mem_filter hk) hnew) _ _
    rw [State.mapAt_setEntries, filter_append, map_append, map_congr_left hsa, append_assoc, ← h.given c]
    rcases eq_or_ne c r.1 with rfl | hc
    · rw [filter_cons_of_pos (by simp), filter_nil, map_singleton, hfree, update_self, update_self]
      rfl
    · rw [filter_cons_of_neg (by simpa using hc.symm), filter_nil, map_nil, nil_append, update_of_ne hc]
  · intro k hk
    show (s.setEntries tid r reg).commitAt k = (s.setEntries tid r reg).mapAt k
    rw [State.commitAt_setEntries, State.mapAt_setEntries]
    rcases mem_append.1 hk with hk | hk
    · have hne : k ≠ (tid, r) := ne_of_mem_of_not_mem hk hnew
      rw [update_of_ne hne, update_of_ne hne, h.commit k hk]
    · cases mem_singleton.1 hk
      rw [update_self, update_self]
  · intro tid'
    dsimp only [State.setEntries]
    rcases eq_or_ne tid' tid with rfl | htid
    · rw [update_self]
      obtain ⟨h₁, h₂, h₃, h₄, h₅⟩ := h.idle tid'
      exact ⟨h₁, h₂, h₃, h₄, h₅⟩
    · rw [update_of_ne htid]
      exact h.idle tid'

theorem Bound.bindRegs (h : Bound done s) (hn : (done ++ todo).Nodup)
    (hro : ∀ c, ((done ++ todo).filter fun k => k.2.1 = c).length ≤ cfg.regFile.numPhysRegs c) :
    ∃ s', State.bindRegs todo s = .ok s' ∧ Bound (done ++ todo) s' := by
  induction todo generalizing done s with
  | nil => exact ⟨s, rfl, by rwa [append_nil]⟩
  | cons k todo ih =>
    obtain ⟨tid, r⟩ := k
    have hsp : done ++ (tid, r) :: todo = (done ++ [(tid, r)]) ++ todo := by simp
    have hnew : (tid, r) ∉ done := by
      intro hmem
      exact disjoint_of_nodup_append hn hmem mem_cons_self
    have hlen := hro r.1
    rw [filter_append, filter_cons_of_pos (by simp), length_append, length_cons] at hlen
    obtain ⟨s₁, hs₁, h₁⟩ := h.bindReg hnew (by omega)
    rw [hsp] at hn hro ⊢
    obtain ⟨s', hs', h'⟩ := ih h₁ hn hro
    exact ⟨s', by rw [State.bindRegs, hs₁, ok_bind, hs'], h'⟩

/-! ### The order of the registers -/

theorem Isa.nodup_regsOf (isa : Isa) (c : RenamedClass) : (isa.regsOf c).Nodup := by
  refine (nodup_finRange _).map fun i j hij => ?_
  exact eq_of_heq (Sigma.mk.inj hij).2

theorem Isa.filter_regsOf (isa : Isa) (c c' : RenamedClass) :
    (isa.regsOf c').filter (fun r => r.1 = c) = if c' = c then isa.regsOf c' else [] := by
  split_ifs with hc
  · refine filter_eq_self.2 fun r hr => ?_
    obtain ⟨i, -, rfl⟩ := mem_map.1 hr
    exact decide_eq_true hc
  · refine filter_eq_nil_iff.2 fun r hr => ?_
    obtain ⟨i, -, rfl⟩ := mem_map.1 hr
    simpa using hc

theorem Isa.filter_allRegs (isa : Isa) (c : RenamedClass) : isa.allRegs.filter (fun r => r.1 = c) = isa.regsOf c := by
  rw [Isa.allRegs, filter_append, filter_append, Isa.filter_regsOf, Isa.filter_regsOf, Isa.filter_regsOf]
  rcases c with - | - | - <;> simp

theorem Isa.nodup_allRegs (isa : Isa) : isa.allRegs.Nodup := by
  refine nodup_iff_count_le_one.2 fun r => ?_
  have hco : isa.allRegs.count r = (isa.regsOf r.1).count r := by
    rw [← isa.filter_allRegs r.1, count_filter (by simp)]
  exact hco ▸ nodup_iff_count_le_one.1 (isa.nodup_regsOf r.1) r

theorem nodup_bindOrder : (bindOrder cfg).Nodup := by
  refine nodup_flatMap.2 ⟨fun tid _ => ?_, ?_⟩
  · exact cfg.isa.nodup_allRegs.map fun r r' h => (Prod.ext_iff.1 h).2
  · refine (nodup_finRange _).imp fun {tid tid'} hne => ?_
    rw [onFun, disjoint_left]
    intro k hk hk'
    obtain ⟨r, -, rfl⟩ := mem_map.1 hk
    obtain ⟨r', -, h⟩ := mem_map.1 hk'
    exact hne (Prod.ext_iff.1 h).1.symm

theorem filter_bindOrder (c : RenamedClass) : (bindOrder cfg).filter (fun k => k.2.1 = c) =
      (List.finRange cfg.threads).flatMap fun tid => (cfg.isa.regsOf c).map fun r => (tid, r) := by
  rw [bindOrder, filter_flatMap]
  congr 1
  funext tid
  rw [filter_map, ← cfg.isa.filter_allRegs c]
  rfl

theorem length_filter_bindOrder (c : RenamedClass) :
    ((bindOrder cfg).filter fun k => k.2.1 = c).length = cfg.threads * cfg.isa.numRegs c := by
  rw [filter_bindOrder, length_flatMap]
  simp [Isa.regsOf]

theorem mem_bindOrder (k : Fin cfg.threads × cfg.isa.ArchReg) : k ∈ bindOrder cfg := by
  have hmem : k ∈ (bindOrder cfg).filter fun k' => k'.2.1 = k.2.1 := by
    rw [filter_bindOrder, mem_flatMap]
    exact ⟨k.1, mem_finRange _, mem_map.2 ⟨k.2, mem_map.2 ⟨k.2.2, mem_finRange _, rfl⟩, rfl⟩⟩
  exact mem_of_mem_filter hmem

/-- **The constructor succeeds**, and every register of every thread has a physical one. -/
theorem init_eq_ok (cfg : Config) : ∃ s, init cfg = .ok s ∧ Bound (bindOrder cfg) s :=
  bound_blank.bindRegs nodup_bindOrder fun c =>
    (length_filter_bindOrder c).trans_le (cfg.enough c)

end

/-! ## The registers of a class -/

/-- The previous mappings that the history buffer of a thread holds on to. -/
def Thread.held (th : Thread cfg) (c : RenamedClass) : Multiset Nat :=
  Undo.held (regsIn cfg c) (changes cfg (destsOf th.historyBuffer))

/-- The image of the rename map of a thread. -/
def Thread.image (th : Thread cfg) (c : RenamedClass) : Multiset Nat :=
  (regsIn cfg c).val.map th.renameMap

/-- The physical registers of a class. -/
def PhysRegFile.regs (regFile : PhysRegFile) (c : RenamedClass) : Multiset Nat :=
  List.range' (regFile.base c) (regFile.numPhysRegs c)

/-- The physical registers of a class are divided among the free list, the rename maps and the
previous mappings in the history buffers. -/
def State.Conserves (s : State cfg) (c : RenamedClass) : Prop :=
  (s.freeList c : Multiset Nat) + ∑ tid, (s.thread tid).image c + ∑ tid, (s.thread tid).held c = cfg.regFile.regs c

/-- What holds of the rename stages of all threads together. -/
structure State.Sound (s : State cfg) : Prop where
  rename : ∀ tid, ((s.thread tid).view s.freeList).Sound
  conserves : ∀ c, s.Conserves c
  /-- The instructions on their way to commit have renamed destinations. -/
  rob : ∀ tid, ∀ inst ∈ (s.thread tid).rob, ∀ dest ∈ inst.dests, dest.Ok cfg
  /-- The zero register of the first thread is where its map expects it. -/
  zero : ∀ tid r, cfg.isa.IsZero r → tid.val = 0 → (s.thread tid).renameMap r = cfg.isa.zeroRegOf r.1

section

variable {s : State cfg} {tid : Fin cfg.threads}

theorem PhysRegFile.nodup_regs (regFile : PhysRegFile) (c : RenamedClass) : (regFile.regs c).Nodup :=
  nodup_range'

/-- What a thread's map and history buffer hold on to. -/
def Thread.account (th : Thread cfg) (c : RenamedClass) : Multiset Nat :=
  Undo.account (regsIn cfg c) th.renameMap (changes cfg (destsOf th.historyBuffer))

variable {c : RenamedClass} {freeList : UnifiedFreeList} {th : Thread cfg} {op : Op}

theorem State.conserves_iff : s.Conserves c ↔
      (s.freeList c : Multiset Nat) + ∑ tid, (s.thread tid).account c = cfg.regFile.regs c := by
  rw [State.Conserves, add_assoc, ← Finset.sum_add_distrib]
  rfl

theorem State.Sound.nodup_stock (h : s.Sound) (tid : Fin cfg.threads) (c : RenamedClass) :
    (((s.thread tid).view s.freeList).stock c).Nodup := by
  have hle : ((s.thread tid).view s.freeList).stock c ≤ cfg.regFile.regs c := by
    rw [← State.conserves_iff.1 (h.conserves c)]
    exact add_le_add_right (Finset.single_le_sum (fun _ _ => Multiset.zero_le _) (Finset.mem_univ tid)) _
  exact Multiset.nodup_of_le hle (cfg.regFile.nodup_regs c)

/-- The threads' accounts when one thread changes. -/
theorem sum_account_update (thread : Fin cfg.threads → Thread cfg) (tid : Fin cfg.threads)
    (th : Thread cfg) (c : RenamedClass) :
    (thread tid).account c + ∑ tid', (update thread tid th tid').account c =
      th.account c + ∑ tid', (thread tid').account c := by
  rw [← Finset.add_sum_erase _ _ (Finset.mem_univ tid),
    ← Finset.add_sum_erase _ (fun tid' => (thread tid').account c) (Finset.mem_univ tid)]
  have ho : ∑ tid' ∈ Finset.univ.erase tid, (update thread tid th tid').account c =
      ∑ tid' ∈ Finset.univ.erase tid, (thread tid').account c :=
    Finset.sum_congr rfl fun tid' h => by rw [update_of_ne (Finset.ne_of_mem_erase h)]
  rw [ho, update_self, add_left_comm]

/-- **A step on one thread keeps what holds of all.** -/
theorem State.Sound.update (h : s.Sound) (hke : ((s.thread tid).view s.freeList).Keeps (th.view freeList))
    (hrob : ∀ inst ∈ th.rob, ∀ dest ∈ inst.dests, dest.Ok cfg) :
    State.Sound { freeList := freeList, thread := Function.update s.thread tid th } := by
  refine ⟨?_, ?_, ?_, ?_⟩
  · intro tid'
    dsimp only
    rcases eq_or_ne tid' tid with rfl | htid
    · rw [update_self]
      exact hke.sound
    · rw [update_of_ne htid]
      obtain ⟨-, hm, hh, hlea⟩ := h.rename tid'
      exact ⟨hke.sound.free, hm, hh, hlea⟩
  · intro c
    have hsum := sum_account_update s.thread tid th c
    have hst : (freeList c : Multiset Nat) + th.account c =
        (s.freeList c : Multiset Nat) + (s.thread tid).account c := hke.stock c
    rw [State.conserves_iff, ← State.conserves_iff.1 (h.conserves c)]
    -- Both sides agree after the account of the thread before the step is added.
    refine add_left_cancel (a := (s.thread tid).account c) ?_
    calc (s.thread tid).account c + ((freeList c : Multiset Nat) +
          ∑ tid', (Function.update s.thread tid th tid').account c)
        = (freeList c : Multiset Nat) + ((s.thread tid).account c +
            ∑ tid', (Function.update s.thread tid th tid').account c) := add_left_comm _ _ _
      _ = (freeList c : Multiset Nat) + th.account c + ∑ tid', (s.thread tid').account c := by
          rw [hsum, add_assoc]
      _ = (s.thread tid).account c + ((s.freeList c : Multiset Nat) + ∑ tid', (s.thread tid').account c) := by
          rw [hst, add_assoc, add_left_comm]
  · intro tid'
    dsimp only
    rw [update_apply]
    split
    · assumption
    · exact h.rob tid'
  · intro tid' r hr htid'
    dsimp only
    rw [update_apply]
    split_ifs with htid
    · exact (hke.zero r hr).trans (htid ▸ h.zero tid' r hr htid')
    · exact h.zero tid' r hr htid'

/-- The dest registers of a retiring instruction can be entered into a map. -/
theorem commitDests_eq_ok {dests : List Renamed} (h : ∀ dest ∈ dests, dest.Ok cfg) (map : RenameMap cfg) :
    commitDests dests map = .ok (redo map (changes cfg dests.reverse)) := by
  induction dests generalizing map with
  | nil => rfl
  | cons dest dests ih =>
    have hre : ∀ dest ∈ dests, dest.Ok cfg := fun d hd => h d (mem_cons_of_mem _ hd)
    rw [reverse_cons, changes_append, redo, foldr_append, commitDests]
    rcases h dest mem_cons_self with ⟨r, hnew, -, -⟩ | hrel
    · rw [RenameMap.setEntry_unified map r hnew, ok_bind, ih hre, changes_cons_renamed]
      rfl
    · rw [RenameMap.setEntry_misc map hrel, ok_bind, ih hre, changes_cons_misc hrel]
      rfl

/-- The threads' registers are all in the map at the beginning. -/
theorem sum_image_eq (s : State cfg) (c : RenamedClass) : ∑ tid, (s.thread tid).image c =
      (((bindOrder cfg).filter fun k => k.2.1 = c).map s.mapAt : List Nat) := by
  rw [filter_bindOrder, Fin.sum_univ_def]
  induction List.finRange cfg.threads with
  | nil => rfl
  | cons tid tids ih =>
    have him : (s.thread tid).image c = (((cfg.isa.regsOf c).map fun r => (tid, r)).map s.mapAt : List Nat) := by
      rw [Thread.image, regsIn, toFinset_val, (cfg.isa.nodup_regsOf c).dedup, map_map]
      rfl
    rw [map_cons, sum_cons, ih, him, Multiset.coe_add, flatMap_cons, map_append]

theorem Isa.IsZero.fst_eq {isa : Isa} {r : isa.ArchReg} (h : isa.IsZero r) : r.1 = .int := by
  obtain ⟨c, i, hi⟩ := r
  have hmax := isa.index_lt
  rcases c with - | - | -
  · rfl
  · change i = isa.numRegs .float + 1 at h
    omega
  · change i = 2 ^ 16 - 1 at h
    omega

theorem finRange_eq_cons {n : Nat} {i : Fin n} (hi : i.val = 0) : ∃ l, List.finRange n = i :: l := by
  rcases n with - | n
  · exact i.elim0
  · obtain rfl : i = 0 := Fin.ext hi
    exact ⟨_, finRange_succ⟩

/-- The first thread's integer registers are the first physical ones. -/
theorem Bound.mapAt_int (h : Bound (bindOrder cfg) s)
    (htid : tid.val = 0) (i : Fin (cfg.isa.numRegs .int)) : s.mapAt (tid, ⟨.int, i⟩) = i := by
  obtain ⟨tids, hti⟩ := finRange_eq_cons htid
  have hg := h.given .int
  rw [filter_bindOrder, hti, flatMap_cons, map_append, append_assoc] at hg
  have hget := congrArg (fun l => l[i.val]?) hg
  have hph : i.val < cfg.regFile.numPhysRegs .int := by
    have hth : 1 ≤ cfg.threads := Nat.lt_of_le_of_lt (Nat.zero_le _) tid.isLt
    exact (i.isLt.trans_le (Nat.le_mul_of_pos_left _ hth)).trans_le (cfg.enough .int)
  rw [getElem?_append_left (by simp [Isa.regsOf]), getElem?_range' hph] at hget
  simpa [Isa.regsOf, PhysRegFile.base] using hget

theorem Bound.isPhysReg (h : Bound (bindOrder cfg) s) {reg : Nat}
    (hreg : reg ∈ ((bindOrder cfg).filter fun k => k.2.1 = c).map s.mapAt ∨
      reg ∈ s.freeList c) : cfg.regFile.isPhysReg c reg = true := by
  have hmem := mem_append.2 hreg
  rw [h.given c, mem_range'_1] at hmem
  exact PhysRegFile.isPhysReg_iff.2 hmem

/-- The core is sound as it is constructed. -/
theorem sound_init (h : Bound (bindOrder cfg) s) : s.Sound where
  rename := by
    intro tid
    refine ⟨fun c reg hreg => h.isPhysReg (.inr hreg), fun r => h.isPhysReg (.inl ?_), ?_, ?_⟩
    · exact mem_map.2 ⟨(tid, r), mem_filter.2 ⟨mem_bindOrder _, decide_eq_true rfl⟩, rfl⟩
    · rw [Thread.view, (h.idle tid).history]
      simp [destsOf]
    · rw [Thread.view, (h.idle tid).history]
      trivial
  conserves := by
    intro c
    have hh : ∀ tid, (s.thread tid).held c = 0 := by
      intro tid
      rw [Thread.held, (h.idle tid).history]
      rfl
    rw [State.Conserves, sum_image_eq, Finset.sum_congr rfl fun tid _ => hh tid,
      Finset.sum_const_zero, add_zero, add_comm, Multiset.coe_add, h.given c]
    rfl
  rob := by
    intro tid inst hin
    rw [(h.idle tid).rob] at hin
    cases hin
  zero := by
    intro tid r hr htid
    obtain ⟨c, i⟩ := r
    obtain rfl : c = .int := hr.fst_eq
    exact (h.mapAt_int htid i).trans hr

/-- What an operation on a thread relies on.  A renamed instruction has destinations that are
registers, and there is a free register for each of them; a thread other than the first does not
rename the zero register, which its map has elsewhere than `rename` asserts. -/
def State.Ready (s : State cfg) (tid : Fin cfg.threads) : Op → Prop
  | .rename inst =>
    (∀ destReg ∈ inst.destRegs, ∃ cls rel, cfg.isa.regIdxToClass destReg = .ok (cls, rel) ∧
      ∀ c, cls = .renamed c → inst.flatten c rel < cfg.isa.numRegs c ∧
        (inst.flatten c rel = cfg.isa.zeroRegOf c → tid.val = 0)) ∧
    ∀ c, numDestRegs cfg.isa inst.destRegs c ≤ (s.freeList c).length
  | .commitHead => (s.thread tid).rob ≠ []
  | .removeFromHistory _ => True
  | .squash _ => True

theorem State.Sound.fits (h : s.Sound) {inst : Inst} (hre : s.Ready tid (.rename inst)) :
    ∀ destReg ∈ inst.destRegs, ((s.thread tid).view s.freeList).Fits inst destReg := by
  intro destReg hd
  obtain ⟨cls, rel, hcls, hc⟩ := hre.1 destReg hd
  have hun : ∀ {c' rel'}, cfg.isa.regIdxToClass destReg = .ok (.renamed c', rel') → cls = .renamed c' ∧ rel = rel' := by
    intro c' rel' h'
    rw [hcls] at h'
    cases h'
    exact ⟨rfl, rfl⟩
  have hlt : ∀ {c rel}, cfg.isa.regIdxToClass destReg = .ok (.renamed c, rel) →
      inst.flatten c rel < cfg.isa.numRegs c := by
    intro c' rel' h'
    obtain ⟨rfl, rfl⟩ := hun h'
    exact (hc c' rfl).1
  refine ⟨⟨cls, rel, hcls⟩, hlt, fun {c' rel'} h' heq => ?_⟩
  obtain ⟨rfl, rfl⟩ := hun h'
  exact h.zero tid ⟨c', _, hlt hcls⟩ heq ((hc c' rfl).2 heq)

/-- An operation on a thread keeps the stock of the rename stage. -/
theorem State.Sound.threadExec (h : s.Sound) (hop : (s.thread tid).exec s.freeList op = .ok (freeList, th)) :
    ((s.thread tid).view s.freeList).Keeps (th.view freeList) ∧ ∀ inst ∈ th.rob, ∀ dest ∈ inst.dests, dest.Ok cfg := by
  rcases op with inst | - | n | n
  · obtain ⟨⟨dests, st⟩, hst, hop⟩ := bind_eq_ok.1 hop
    cases hop
    obtain ⟨hke, hd, -, -⟩ := (h.rename tid).renameDestRegs (h.nodup_stock tid) hst
    refine ⟨hke, fun i hi => ?_⟩
    rcases mem_append.1 hi with hi | hi
    · exact h.rob tid i hi
    · cases mem_singleton.1 hi
      exact hd
  · rw [Thread.exec] at hop
    split at hop
    · cases hop
    rename_i head rest hrob
    obtain ⟨map, -, hop⟩ := bind_eq_ok.1 hop
    cases hop
    refine ⟨(h.rename tid).keeps, fun i hi => h.rob tid i ?_⟩
    rw [hrob]
    exact mem_cons_of_mem _ hi
  · obtain ⟨st, hst, hop⟩ := bind_eq_ok.1 hop
    cases hop
    obtain ⟨st', hst', hke, -, -⟩ := (h.rename tid).removeFromHistory (n := n)
    cases hst.symm.trans hst'
    exact ⟨hke, h.rob tid⟩
  · obtain ⟨st, hst, hop⟩ := bind_eq_ok.1 hop
    cases hop
    obtain ⟨st', hst', hke, -, -⟩ := (h.rename tid).doSquash (n := n)
    cases hst.symm.trans hst'
    exact ⟨hke, fun i hi => h.rob tid i (mem_of_mem_filter hi)⟩

/-- **Every operation keeps the core sound.** -/
theorem State.Sound.step (h : s.Sound) {op : Fin cfg.threads × Op} {s' : State cfg}
    (hs : exec s op = .ok s') : s'.Sound := by
  obtain ⟨⟨freeList, th⟩, hop, hs⟩ := bind_eq_ok.1 hs
  cases hs
  obtain ⟨hke, hrob⟩ := h.threadExec hop
  exact h.update hke hrob

/-- **No assertion fails** on an operation that is ready. -/
theorem State.Sound.exists_step (h : s.Sound) (hre : s.Ready tid op) : ∃ s', exec s (tid, op) = .ok s' := by
  suffices hop : ∃ r, (s.thread tid).exec s.freeList op = .ok r by
    obtain ⟨r, hr⟩ := hop
    exact ⟨_, bind_eq_ok.2 ⟨r, hr, rfl⟩⟩
  rcases op with inst | - | n | n
  · obtain ⟨dests, st, hst⟩ := (h.rename tid).exists_renameDestRegs (h.nodup_stock tid) (h.fits hre) hre.2
    exact ⟨_, bind_eq_ok.2 ⟨_, hst, rfl⟩⟩
  · rcases hrob : (s.thread tid).rob with - | ⟨head, rest⟩
    · exact absurd hrob hre
    have hh : head ∈ (s.thread tid).rob := by
      rw [hrob]
      exact mem_cons_self
    have hd := commitDests_eq_ok (h.rob tid head hh) (s.thread tid).commitRenameMap
    rw [Thread.exec, hrob]
    exact ⟨_, bind_eq_ok.2 ⟨_, hd, rfl⟩⟩
  · obtain ⟨st, hst, -⟩ := (h.rename tid).removeFromHistory (n := n)
    exact ⟨_, bind_eq_ok.2 ⟨_, hst, rfl⟩⟩
  · obtain ⟨st, hst, -⟩ := (h.rename tid).doSquash (n := n)
    exact ⟨_, bind_eq_ok.2 ⟨_, hst, rfl⟩⟩

end

/-! ## Conservation over whole runs -/

theorem sound_of_reaches {ok : State cfg → Fin cfg.threads × Op → Prop} {s₀ s : State cfg}
    (h₀ : init cfg = .ok s₀) (h : Reaches exec ok s₀ s) : s.Sound := by
  obtain ⟨s₁, hs₁, hbo⟩ := init_eq_ok cfg
  cases h₀.symm.trans hs₁
  exact h.invariant (sound_init hbo) fun _ hso _ hs => hso.step hs

/-- **Rename conserves physical registers**: after any operations, on any threads and with any
sequence numbers, the physical registers of every class are divided among the free list, the
rename maps and the previous mappings in the history buffers, and no further operation fails as long
as there is a free register for each destination. -/
theorem rename_conserves {s₀ s : State cfg} (h₀ : init cfg = .ok s₀) (h : Reaches exec (fun _ _ => True) s₀ s) :
    (∀ c, s.Conserves c) ∧ ∀ tid op, s.Ready tid op → ∃ s', exec s (tid, op) = .ok s' :=
  have hso := sound_of_reaches h₀ h
  ⟨hso.conserves, fun _ _ => hso.exists_step⟩

/-- The registers of the ARM instruction set. -/
def arm : Isa where
  numRegs
    | .int => 43
    | .float => 160
    | .cc => 6
  numMiscRegs := 606
  fpRegBase := 43 * 32
  zeroReg := 34
  numIntRegs_le := by decide
  index_lt := by decide

/-- The out-of-order core of the experiments, `O3_ARM_v7a_3`. -/
def armDetailed : Config where
  isa := arm
  regFile :=
    { numPhysRegs
        | .int => 128
        | .float => 192
        | .cc => 640 }
  threads := 1
  enough := by
    intro c
    rcases c with - | - | - <;> decide

/-- A run of the core from its construction, replayed. -/
theorem exists_run (ok : State cfg → Fin cfg.threads × Op → Prop) [∀ s op, Decidable (ok s op)]
    (ops : List (Fin cfg.threads × Op)) (P : State cfg → State cfg → Prop) [∀ s₀ s, Decidable (P s₀ s)]
    (h : (match init cfg with
      | .ok s₀ => (runChecked exec ok s₀ ops).any fun s => decide (P s₀ s)
      | .error _ => false) = true) : ∃ s₀ s, init cfg = .ok s₀ ∧ Reaches exec ok s₀ s ∧ P s₀ s := by
  split at h
  · rename_i s₀ h₀
    obtain ⟨s, hs, hP⟩ := exists_reaches exec ok s₀ ops (P s₀) h
    exact ⟨s₀, s, h₀, hs, hP⟩
  · cases h

/-- The only thread of the core. -/
def onlyThread : Fin armDetailed.threads := ⟨0, one_pos⟩

/-- Two instructions, one of which is squashed and one of which commits. -/
def twoInsts : List (Fin armDetailed.threads × Op) :=
  [(onlyThread, .rename ⟨1, [3, 34, 1380, 1600], fun _ rel => rel⟩),
    (onlyThread, .rename ⟨2, [3, 3], fun _ rel => rel⟩), (onlyThread, .squash 1),
    (onlyThread, .commitHead), (onlyThread, .removeFromHistory 1)]

theorem rename_conserves_twoInsts : ∃ s₀ s, init armDetailed = .ok s₀ ∧ Reaches exec (fun _ _ => True) s₀ s ∧
      ((s.freeList .int).length = 85 ∧ (s.freeList .float).length = 32) ∧ (∀ c, s.Conserves c) ∧
      ∃ s', exec s (onlyThread, .squash 0) = .ok s' := by
  obtain ⟨s₀, s, h₀, hs, hlen⟩ := exists_run (fun _ _ => True) twoInsts
    (fun _ s => (s.freeList .int).length = 85 ∧ (s.freeList .float).length = 32) (by decide +kernel)
  obtain ⟨hco, hst⟩ := rename_conserves h₀ hs
  exact ⟨s₀, s, h₀, hs, hlen, hco, hst onlyThread (.squash 0) trivial⟩

/-- All previous mappings in the history buffer of a thread, those of the zero register
included. -/
def Thread.prevMappings (th : Thread cfg) (c : RenamedClass) : Multiset Nat :=
  (((changes cfg (destsOf th.historyBuffer)).filter fun ch => ch.key ∈ regsIn cfg c).map
    Change.prev : List Nat)

/-- Once the zero register is renamed, its physical register is in the map and in the history
buffer. -/
theorem zeroReg_twice : ∃ s₀ s, init armDetailed = .ok s₀ ∧ Reaches exec (fun _ _ => True) s₀ s ∧
      (s.freeList .int : Multiset Nat) + ∑ tid, (s.thread tid).image .int +
        ∑ tid, (s.thread tid).prevMappings .int ≠ armDetailed.regFile.regs .int := by
  obtain ⟨s₀, s, h₀, hs, hca⟩ := exists_run (fun _ _ => True) [(onlyThread, .rename ⟨1, [34], fun _ rel => rel⟩)]
    (fun _ s : State armDetailed => Multiset.card ((s.freeList .int : Multiset Nat) +
      ∑ tid, (s.thread tid).image .int + ∑ tid, (s.thread tid).prevMappings .int) = 129)
    (by decide +kernel)
  refine ⟨s₀, s, h₀, hs, fun heq => ?_⟩
  rw [heq] at hca
  exact absurd hca (by decide +kernel)

end GuardianCouncil.O3
