import GuardianCouncil.O3.Rename

/-!
# What the steps of renaming do

Seen from one thread, the history buffer is a log of changes to the rename map (`changes`), the
newest first; entries of misc registers are no changes.  `Rename.Sound` says that the log is a
history of the map and that every register is in its class.  Each step of the rename stage keeps
this, and keeps the *stock* of every class: the registers that are free, or in the map, or held by
the history buffer.
-/

namespace GuardianCouncil.O3

open Undo List Function Fallible

/-! ## Register numbers -/

section

variable {isa : Isa} {regFile : PhysRegFile} {c c' : RenamedClass} {reg rel : Nat}

theorem Isa.archReg_eq_ok {r : isa.ArchReg} :
    isa.archReg c rel = .ok r ↔ ∃ h : rel < isa.numRegs c, r = ⟨c, rel, h⟩ := by
  rw [Isa.archReg]
  split_ifs with h
  · simp only [Except.ok.injEq, h, exists_true_left, eq_comm]
  · simp [h]

theorem Isa.regBases_eq (isa : Isa) : isa.ccRegBase = isa.fpRegBase + isa.numRegs .float ∧
    isa.miscRegBase = isa.ccRegBase + isa.numRegs .cc ∧ isa.maxRegIndex = isa.miscRegBase + isa.numMiscRegs :=
  ⟨rfl, rfl, rfl⟩

/-- The unified index of a register leads back to it. -/
theorem Isa.regIdxToClass_unified (r : isa.ArchReg) : isa.regIdxToClass (isa.unified r) = .ok (.renamed r.1, r.2) := by
  obtain ⟨c, i, hi⟩ := r
  have hint := isa.numIntRegs_le
  obtain ⟨hcc, hm, hmax⟩ := isa.regBases_eq
  rcases c with - | - | -
  · show isa.regIdxToClass i = _
    rw [Isa.regIdxToClass, if_pos (by omega), if_pos (by omega)]
  · show isa.regIdxToClass (i + isa.fpRegBase) = _
    rw [Isa.regIdxToClass, if_pos (by omega), if_neg (by omega), if_pos (by omega), Nat.add_sub_cancel]
  · show isa.regIdxToClass (i + isa.ccRegBase) = _
    rw [Isa.regIdxToClass, if_pos (by omega), if_neg (by omega), if_neg (by omega),
      if_pos (by omega), Nat.add_sub_cancel]

theorem Isa.regIdxToClass_misc (h : rel < isa.numMiscRegs) :
    isa.regIdxToClass (rel + isa.regBase .misc) = .ok (.misc, rel) := by
  obtain ⟨hcc, hm, hmax⟩ := isa.regBases_eq
  show isa.regIdxToClass (rel + isa.miscRegBase) = _
  rw [Isa.regIdxToClass, if_pos (by omega), if_neg (by omega), if_neg (by omega), if_neg (by omega), Nat.add_sub_cancel]

/-- A misc index is below the number of misc registers. -/
theorem Isa.lt_of_regIdxToClass_misc {regIdx : Nat}
    (h : isa.regIdxToClass regIdx = .ok (.misc, rel)) : rel < isa.numMiscRegs := by
  rw [Isa.regIdxToClass] at h
  split at h
  · rename_i hmax
    rw [Isa.maxRegIndex] at hmax
    split at h
    · cases h
    split at h
    · cases h
    · split at h
      · cases h
      · cases h
        omega
  · cases h

theorem PhysRegFile.isPhysReg_iff : regFile.isPhysReg c reg = true ↔
      regFile.base c ≤ reg ∧ reg < regFile.base c + regFile.numPhysRegs c := by
  rw [PhysRegFile.isPhysReg, decide_eq_true_iff]

/-- A physical register is in one class only. -/
theorem PhysRegFile.isPhysReg_unique (h : regFile.isPhysReg c reg = true)
    (h' : regFile.isPhysReg c' reg = true) : c = c' := by
  rw [PhysRegFile.isPhysReg_iff] at h h'
  rcases c with - | - | - <;> rcases c' with - | - | - <;> simp only [PhysRegFile.base] at h h' <;> first | rfl | omega

/-- A freed register goes to the list of its class. -/
theorem UnifiedFreeList.addReg_eq {freeList : UnifiedFreeList} (h : regFile.isPhysReg c reg = true) :
    freeList.addReg regFile reg = .ok (update freeList c (freeList c ++ [reg])) := by
  have ho : ∀ c', c' ≠ c → ¬ regFile.isPhysReg c' reg = true := fun c' hne h' => hne (PhysRegFile.isPhysReg_unique h' h)
  rw [UnifiedFreeList.addReg]
  rcases c with - | - | -
  · rw [if_pos h]
  · rw [if_neg (ho .int (by decide)), if_pos h]
  · rw [if_neg (ho .int (by decide)), if_neg (ho .float (by decide)), if_pos h]

end

variable {cfg : Config}

theorem RenameMap.setEntry_unified (map : RenameMap cfg) (r : cfg.isa.ArchReg)
    {reg : Nat} (h : cfg.regFile.isPhysReg r.1 reg = true) :
    map.setEntry (cfg.isa.unified r) reg = .ok (update map r reg) := by
  rw [RenameMap.setEntry, Isa.regIdxToClass_unified, ok_bind]
  dsimp only
  rw [if_pos h, Isa.archReg_eq_ok.2 ⟨r.2.2, rfl⟩, ok_bind]

variable {rel : Nat} {isa : Isa} {st : Rename cfg}

theorem RenameMap.setEntry_misc (map : RenameMap cfg) (h : rel < cfg.isa.numMiscRegs) :
    map.setEntry (rel + cfg.isa.regBase .misc) (lookupMisc cfg rel) = .ok map := by
  rw [RenameMap.setEntry, Isa.regIdxToClass_misc h, ok_bind]
  dsimp only
  rw [if_pos rfl]

/-! ## The history buffer as a log of changes -/

/-- The register that the map of its class never renames. -/
def Isa.IsZero (isa : Isa) (r : isa.ArchReg) : Prop := (r.2 : Nat) = isa.zeroRegOf r.1

open Isa

/-- A destination as it is renamed: a register with physical registers of its class, the same ones
for the zero register, or a misc register with the number it always has. -/
inductive Renamed.Ok (cfg : Config) : Renamed → Prop
  | renamed (r : cfg.isa.ArchReg) {new prev : Nat}
      (hnew : cfg.regFile.isPhysReg r.1 new = true)
      (hprev : cfg.regFile.isPhysReg r.1 prev = true)
      (hzero : cfg.isa.IsZero r → new = prev) : Ok cfg ⟨cfg.isa.unified r, new, prev⟩
  | misc {rel : Nat} (h : rel < cfg.isa.numMiscRegs) :
      Ok cfg ⟨rel + cfg.isa.regBase .misc, lookupMisc cfg rel, lookupMisc cfg rel⟩

/-- The register with a unified index, unless that is of a misc register. -/
def Isa.archOf (isa : Isa) (regIdx : Nat) : Option isa.ArchReg :=
  match isa.regIdxToClass regIdx with
  | .ok (.renamed c, rel) => (isa.archReg c rel).toOption
  | _ => none

theorem Isa.archOf_unified (r : isa.ArchReg) : isa.archOf (isa.unified r) = some r := by
  rw [archOf, regIdxToClass_unified]
  dsimp only
  rw [archReg_eq_ok.2 ⟨r.2.2, rfl⟩]
  rfl

theorem Isa.archOf_misc (h : rel < isa.numMiscRegs) : isa.archOf (rel + isa.regBase .misc) = none := by
  rw [archOf, regIdxToClass_misc h]

/-- The change that a renamed destination is, if it is one. -/
def Renamed.change (cfg : Config) (dest : Renamed) : Option (Change cfg.isa.ArchReg Nat) :=
  (cfg.isa.archOf dest.archReg).map fun r => ⟨r, dest.newPhysReg, dest.prevPhysReg⟩

def changes (cfg : Config) (dests : List Renamed) : List (Change cfg.isa.ArchReg Nat) :=
  dests.filterMap (Renamed.change cfg)

/-- The destinations in a history buffer. -/
def destsOf (history : List RenameHistory) : List Renamed := history.map RenameHistory.toRenamed

@[simp] theorem changes_nil : changes cfg [] = [] := rfl

theorem changes_append (l l' : List Renamed) : changes cfg (l ++ l') = changes cfg l ++ changes cfg l' :=
  filterMap_append

theorem changes_cons_renamed (r : cfg.isa.ArchReg) (new prev : Nat) (l : List Renamed) :
    changes cfg (⟨cfg.isa.unified r, new, prev⟩ :: l) = ⟨r, new, prev⟩ :: changes cfg l := by
  refine filterMap_cons_some ?_
  rw [Renamed.change, archOf_unified]
  rfl

theorem changes_cons_misc (h : rel < cfg.isa.numMiscRegs) (new prev : Nat) (l : List Renamed) :
    changes cfg (⟨rel + cfg.isa.regBase .misc, new, prev⟩ :: l) = changes cfg l := by
  refine filterMap_cons_none ?_
  rw [Renamed.change, archOf_misc h]
  rfl

def regsIn (cfg : Config) (c : RenamedClass) : Finset cfg.isa.ArchReg :=
  (cfg.isa.regsOf c).toFinset

@[simp] theorem mem_regsIn {c : RenamedClass} {r : cfg.isa.ArchReg} : r ∈ regsIn cfg c ↔ r.1 = c := by
  rw [regsIn, mem_toFinset, regsOf, mem_map]
  constructor
  · rintro ⟨i, -, rfl⟩
    rfl
  · rintro rfl
    exact ⟨r.2, mem_finRange _, rfl⟩

/-- The registers of a class that the rename stage can account for: those that are free, and those
that the thread's map and history buffer hold on to. -/
def Rename.stock (st : Rename cfg) (c : RenamedClass) : Multiset Nat :=
  (st.freeList c : Multiset Nat) + account (regsIn cfg c) st.renameMap (changes cfg (destsOf st.historyBuffer))

/-- The history buffer is a history of the map, and every register is in its class. -/
structure Rename.Sound (st : Rename cfg) : Prop where
  /-- The free registers are in their class. -/
  free : ∀ c, ∀ reg ∈ st.freeList c, cfg.regFile.isPhysReg c reg = true
  /-- A register is mapped to one of its class. -/
  mapped : ∀ r, cfg.regFile.isPhysReg r.1 (st.renameMap r) = true
  /-- The history buffer holds renamed destinations. -/
  history : ∀ dest ∈ destsOf st.historyBuffer, dest.Ok cfg
  /-- The newest change is what the map holds, and so on. -/
  leadsTo : LeadsTo st.renameMap (changes cfg (destsOf st.historyBuffer))

/-- A step keeps the rename stage sound, accounts for the same registers, and leaves the zero
register alone. -/
structure Rename.Keeps (st st' : Rename cfg) : Prop where
  sound : st'.Sound
  stock : ∀ c, st'.stock c = st.stock c
  zero : ∀ r, cfg.isa.IsZero r → st'.renameMap r = st.renameMap r

theorem Rename.Sound.keeps (h : st.Sound) : st.Keeps st :=
  ⟨h, fun _ => rfl, fun _ _ => rfl⟩

theorem Rename.Keeps.trans {st' st'' : Rename cfg} (h : st.Keeps st') (h' : st'.Keeps st'') : st.Keeps st'' :=
  ⟨h'.sound, fun c => (h'.stock c).trans (h.stock c), fun r hr => (h'.zero r hr).trans (h.zero r hr)⟩

/-! ## Renaming a destination -/

section

variable {st st' : Rename cfg} {inst : Inst} {destReg : Nat} {dest : Renamed}

/-- What renaming a destination can do: the destination is given the next free register of its
class, or it is the zero register or a misc register and nothing changes. -/
inductive Rename.Renames (st : Rename cfg) : Renamed → Rename cfg → Prop
  | fresh (r : cfg.isa.ArchReg) (reg : Nat) (rest : List Nat) (hfree : st.freeList r.1 = reg :: rest)
      (hzero : ¬ cfg.isa.IsZero r) (hreg : cfg.regFile.isPhysReg r.1 reg = true) :
      st.Renames ⟨cfg.isa.unified r, reg, st.renameMap r⟩
        { st with
          freeList := update st.freeList r.1 rest
          renameMap := update st.renameMap r reg }
  | zero (r : cfg.isa.ArchReg) (hzero : cfg.isa.IsZero r)
      (hmap : st.renameMap r = cfg.isa.zeroRegOf r.1)
      (hreg : cfg.regFile.isPhysReg r.1 (st.renameMap r) = true) :
      st.Renames ⟨cfg.isa.unified r, st.renameMap r, st.renameMap r⟩ st
  | misc {rel : Nat} (h : rel < cfg.isa.numMiscRegs) :
      st.Renames ⟨rel + cfg.isa.regBase .misc, lookupMisc cfg rel, lookupMisc cfg rel⟩ st

variable {c : RenamedClass} {rel reg : Nat} {r : cfg.isa.ArchReg} {destRegs : List Nat}

theorem Rename.renames_of_renameRel {info : Nat × Nat} (h : st.renameRel c rel = .ok (info, st')) :
    st.Renames ⟨rel + cfg.isa.regBase (.renamed c), info.1, info.2⟩ st' := by
  obtain ⟨r, hr, h⟩ := bind_eq_ok.1 h
  obtain ⟨hrel, rfl⟩ := archReg_eq_ok.1 hr
  obtain ⟨⟨info', st''⟩, hren, h⟩ := bind_eq_ok.1 h
  dsimp only at h
  split at h
  · rename_i hph
    cases h
    rw [rename] at hren
    split at hren
    · rename_i hzero
      obtain ⟨⟨reg, freeList⟩, hget, hren⟩ := bind_eq_ok.1 hren
      cases hren
      rw [UnifiedFreeList.getReg] at hget
      split at hget
      · cases hget
      · rename_i hfree
        cases hget
        exact .fresh ⟨c, rel, hrel⟩ reg _ hfree hzero hph
    · rename_i hzero
      split at hren
      · rename_i hmap
        cases hren
        rw [← hmap] at hph ⊢
        exact .zero ⟨c, rel, hrel⟩ (not_not.1 hzero) hmap hph
      · cases hren
  · cases h

theorem Rename.renameDestReg_eq_ok (h : st.renameDestReg inst destReg = .ok (dest, st')) : ∃ st₁, st.Renames dest st₁ ∧
      st' = { st₁ with historyBuffer := ⟨dest, inst.seqNum⟩ :: st₁.historyBuffer } := by
  rw [renameDestReg] at h
  obtain ⟨⟨cls, rel⟩, hcls, h⟩ := bind_eq_ok.1 h
  obtain ⟨⟨dest', st₁⟩, hd, h⟩ := bind_eq_ok.1 h
  cases h
  refine ⟨st₁, ?_, rfl⟩
  rcases cls with c | -
  · obtain ⟨⟨info, st₂⟩, hrel, hd⟩ := bind_eq_ok.1 hd
    cases hd
    exact renames_of_renameRel hrel
  · cases hd
    exact .misc (lt_of_regIdxToClass_misc hcls)

/-- A free register is not in the map. -/
theorem Rename.ne_of_mem_free (hn : (st.stock r.1).Nodup) (hreg : reg ∈ st.freeList r.1) : reg ≠ st.renameMap r := by
  rintro rfl
  have hd := (Multiset.nodup_add.1 hn).2.2
  exact Multiset.disjoint_left.1 hd hreg (mem_account (mem_regsIn.2 rfl))

/-- The rename stage with one more destination in the history buffer. -/
def Rename.record (st : Rename cfg) (dest : Renamed) (seqNum : Nat) : Rename cfg :=
  { st with historyBuffer := ⟨dest, seqNum⟩ :: st.historyBuffer }

section

variable (h : st.Sound)
include h

theorem Rename.Sound.history_record (hde : dest.Ok cfg) (seqNum : Nat) :
    ∀ d ∈ destsOf (st.record dest seqNum).historyBuffer, d.Ok cfg := by
  intro d hd
  rcases mem_cons.1 hd with rfl | hd
  · exact hde
  · exact h.history d hd

/-- The destination takes the first free register of its class. -/
theorem Rename.Sound.fresh (hn : (st.stock r.1).Nodup) {rest : List Nat} (hfree : st.freeList r.1 = reg :: rest)
    (hzero : ¬ cfg.isa.IsZero r) (hreg : cfg.regFile.isPhysReg r.1 reg = true) (seqNum : Nat) : st.Keeps (record
      { st with
        freeList := update st.freeList r.1 rest
        renameMap := update st.renameMap r reg }
      ⟨cfg.isa.unified r, reg, st.renameMap r⟩ seqNum) := by
  have hne : reg ≠ st.renameMap r := ne_of_mem_free hn (by simp [hfree])
  have hch : ∀ l : List Renamed, changes cfg (⟨cfg.isa.unified r, reg, st.renameMap r⟩ :: l) =
      ⟨r, reg, st.renameMap r⟩ :: changes cfg l := changes_cons_renamed r reg _
  have hd : Renamed.Ok cfg ⟨cfg.isa.unified r, reg, st.renameMap r⟩ :=
    .renamed r hreg (h.mapped r) fun hr => absurd hr hzero
  refine ⟨⟨?_, ?_, h.history_record hd seqNum, ?_⟩, ?_, ?_⟩
  · intro c p hp
    dsimp only [record] at hp
    refine h.free c p ?_
    rw [update_apply] at hp
    split_ifs at hp with hc
    · simp [hc, hfree, hp]
    · exact hp
  · intro r'
    dsimp only [record]
    rw [update_apply]
    split_ifs with hr
    · rwa [hr]
    · exact h.mapped r'
  · rw [record, destsOf, map_cons, hch]
    exact h.leadsTo.push r reg
  · intro c
    rw [stock, stock, record, destsOf, map_cons, hch]
    dsimp only
    rcases eq_or_ne c r.1 with rfl | hc
    · rw [update_self, account_push (mem_regsIn.2 rfl) hne, hfree, ← add_assoc,
        ← Multiset.cons_coe, ← Multiset.singleton_add, add_comm (rest : Multiset Nat)]
      rfl
    · rw [update_of_ne hc, account_push_of_not_mem (mt mem_regsIn.1 hc.symm)]
      rfl
  · intro r' hr'
    have hne : r' ≠ r := by
      rintro rfl
      exact hzero hr'
    exact update_of_ne hne _ _

/-- The zero register stays where it is. -/
theorem Rename.Sound.zero (r : cfg.isa.ArchReg) (seqNum : Nat) :
    st.Keeps (st.record ⟨cfg.isa.unified r, st.renameMap r, st.renameMap r⟩ seqNum) := by
  have hch := changes_cons_renamed r (st.renameMap r) (st.renameMap r) (destsOf st.historyBuffer)
  have hd : Renamed.Ok cfg ⟨cfg.isa.unified r, st.renameMap r, st.renameMap r⟩ :=
    .renamed r (h.mapped r) (h.mapped r) fun _ => rfl
  refine ⟨⟨h.free, h.mapped, h.history_record hd seqNum, ?_⟩, ?_, fun _ _ => rfl⟩
  · rw [record, destsOf, map_cons]
    exact hch ▸ h.leadsTo.stay r
  · intro c
    rw [stock, record, destsOf, map_cons]
    rw [destsOf] at hch
    rw [hch, account_cons_of_eq rfl]
    rfl

/-- So does a misc register. -/
theorem Rename.Sound.misc (hrel : rel < cfg.isa.numMiscRegs) (seqNum : Nat) : st.Keeps (st.record
      ⟨rel + cfg.isa.regBase .misc, lookupMisc cfg rel, lookupMisc cfg rel⟩ seqNum) := by
  refine ⟨⟨h.free, h.mapped, h.history_record (.misc hrel) seqNum, ?_⟩, ?_, fun _ _ => rfl⟩
  · rw [record, destsOf, map_cons, changes_cons_misc hrel]
    exact h.leadsTo
  · intro c
    rw [stock, record, destsOf, map_cons, changes_cons_misc hrel]
    rfl

/-- **Renaming a destination** keeps the stock, and its change can be taken back. -/
theorem Rename.Sound.renameDestReg (hn : ∀ c, (st.stock c).Nodup)
    (hok : st.renameDestReg inst destReg = .ok (dest, st')) :
    st.Keeps st' ∧ dest.Ok cfg ∧ st'.historyBuffer = ⟨dest, inst.seqNum⟩ :: st.historyBuffer ∧
      undo st'.renameMap (changes cfg [dest]) = st.renameMap := by
  obtain ⟨st₁, hren, rfl⟩ := renameDestReg_eq_ok hok
  rcases hren with ⟨r, reg, rest, hfree, hzero, hreg⟩ | ⟨r, -, -, hreg⟩ | hrel
  · refine ⟨h.fresh (hn r.1) hfree hzero hreg _, .renamed r hreg (h.mapped r) fun hr => absurd hr hzero, rfl, ?_⟩
    rw [changes_cons_renamed, changes_nil, undo_cons, undo_nil]
    dsimp only
    rw [update_idem, update_eq_self]
  · refine ⟨h.zero r _, .renamed r hreg hreg fun _ => rfl, rfl, ?_⟩
    rw [changes_cons_renamed, changes_nil, undo_cons, undo_nil]
    exact update_eq_self r _
  · refine ⟨h.misc hrel _, .misc hrel, rfl, ?_⟩
    rw [changes_cons_misc hrel, changes_nil, undo_nil]

/-- **Renaming an instruction** keeps the stock; its destinations stand at the front of the history
buffer, and their changes can be taken back. -/
theorem Rename.Sound.renameDestRegs {dests : List Renamed} (hn : ∀ c, (st.stock c).Nodup)
    (hok : Rename.renameDestRegs inst destRegs st = .ok (dests, st')) :
    st.Keeps st' ∧ (∀ dest ∈ dests, dest.Ok cfg) ∧ st'.historyBuffer =
        dests.reverse.map (fun dest => ⟨dest, inst.seqNum⟩) ++ st.historyBuffer ∧
      undo st'.renameMap (changes cfg dests.reverse) = st.renameMap := by
  induction destRegs generalizing st dests with
  | nil =>
    cases hok
    exact ⟨h.keeps, by simp, rfl, rfl⟩
  | cons destReg destRegs ih =>
    rw [Rename.renameDestRegs] at hok
    obtain ⟨⟨dest, st₁⟩, hdes, hok⟩ := bind_eq_ok.1 hok
    obtain ⟨⟨dests, st₂⟩, hde, hok⟩ := bind_eq_ok.1 hok
    cases hok
    obtain ⟨hke, hokd, hh, hun⟩ := h.renameDestReg hn hdes
    have hn₁ : ∀ c, (st₁.stock c).Nodup := fun c => hke.stock c ▸ hn c
    obtain ⟨hk', ho, hh', hu'⟩ := ih hke.sound hn₁ hde
    refine ⟨hke.trans hk', ?_, ?_, ?_⟩
    · intro d hd
      rcases mem_cons.1 hd with rfl | hd
      · exact hokd
      · exact ho d hd
    · rw [hh', hh, reverse_cons, map_append, append_assoc]
      rfl
    · rw [reverse_cons, changes_append, undo_append, hu', hun]

end

/-- The number of destinations of a class: `numIntDestRegs` and the like. -/
def numDestRegs (isa : Isa) (destRegs : List Nat) (c : RenamedClass) : Nat :=
  destRegs.countP fun destReg =>
    match isa.regIdxToClass destReg with
    | .ok (cls, _) => cls = .renamed c
    | .error _ => false

/-- What renaming a destination relies on: it is a register, it stays one when it is flattened, and
if it is the zero register, then that is where the map expects it. -/
structure Rename.Fits (st : Rename cfg) (inst : Inst) (destReg : Nat) : Prop where
  exists_class : ∃ cls rel, cfg.isa.regIdxToClass destReg = .ok (cls, rel)
  flatten_lt : ∀ {c rel}, cfg.isa.regIdxToClass destReg = .ok (.renamed c, rel) → inst.flatten c rel < cfg.isa.numRegs c
  zero : ∀ {c rel} (h : cfg.isa.regIdxToClass destReg = .ok (.renamed c, rel)),
    inst.flatten c rel = cfg.isa.zeroRegOf c → st.renameMap ⟨c, inst.flatten c rel, flatten_lt h⟩ = cfg.isa.zeroRegOf c

/-- A destination of a class is renamed if a register of the class is free. -/
theorem Rename.Sound.exists_renameRel (h : st.Sound) (hrel : rel < cfg.isa.numRegs c)
    (hzero : rel = cfg.isa.zeroRegOf c → st.renameMap ⟨c, rel, hrel⟩ = cfg.isa.zeroRegOf c)
    (hfree : 0 < (st.freeList c).length) : ∃ info st₁, st.renameRel c rel = .ok (info, st₁) ∧
      ∀ c', (st.freeList c').length ≤ (st₁.freeList c').length + if c' = c then 1 else 0 := by
  have hreg : cfg.isa.archReg c rel = .ok ⟨c, rel, hrel⟩ := archReg_eq_ok.2 ⟨hrel, rfl⟩
  by_cases hz : rel = cfg.isa.zeroRegOf c
  · have hph : cfg.regFile.isPhysReg c (cfg.isa.zeroRegOf c) = true := hzero hz ▸ h.mapped ⟨c, rel, hrel⟩
    have hren : st.rename ⟨c, rel, hrel⟩ = .ok ((cfg.isa.zeroRegOf c, st.renameMap ⟨c, rel, hrel⟩), st) :=
      (if_neg (not_not.2 hz)).trans (if_pos (hzero hz))
    exact ⟨_, st, bind_eq_ok.2 ⟨_, hreg, bind_eq_ok.2 ⟨_, hren, if_pos hph⟩⟩, fun _ => Nat.le_add_right _ _⟩
  · rcases hli : st.freeList c with - | ⟨reg, rest⟩
    · rw [hli] at hfree
      exact absurd hfree (lt_irrefl 0)
    have hph : cfg.regFile.isPhysReg c reg = true := h.free c reg (by simp [hli])
    have hget : st.freeList.getReg c = .ok (reg, update st.freeList c rest) := by
      rw [UnifiedFreeList.getReg, hli]
    have hren : st.rename ⟨c, rel, hrel⟩ = .ok ((reg, st.renameMap ⟨c, rel, hrel⟩),
        { st with
          freeList := update st.freeList c rest
          renameMap := update st.renameMap ⟨c, rel, hrel⟩ reg }) :=
      (if_pos hz).trans (bind_eq_ok.2 ⟨_, hget, rfl⟩)
    refine ⟨_, _, bind_eq_ok.2 ⟨_, hreg, bind_eq_ok.2 ⟨_, hren, if_pos hph⟩⟩, ?_⟩
    intro c'
    dsimp only
    split_ifs with hc
    · subst hc
      rw [update_self, hli, length_cons]
    · rw [update_of_ne hc]
      exact le_rfl

/-- A destination is renamed, and takes at most one register of its own class. -/
theorem Rename.Sound.exists_renameDestReg (h : st.Sound) (hfit : st.Fits inst destReg)
    (hfree : ∀ c, numDestRegs cfg.isa (destReg :: destRegs) c ≤ (st.freeList c).length) :
    ∃ dest st₁, st.renameDestReg inst destReg = .ok (dest, st₁) ∧
      ∀ c, numDestRegs cfg.isa destRegs c ≤ (st₁.freeList c).length := by
  obtain ⟨cls, rel, hcls⟩ := hfit.exists_class
  have hco : ∀ c, numDestRegs cfg.isa destRegs c + (if .renamed c = cls then 1 else 0) ≤ (st.freeList c).length := by
    intro c
    have hc := hfree c
    rw [numDestRegs, countP_cons, hcls] at hc
    simpa [numDestRegs, eq_comm] using hc
  rcases cls with c | -
  · have hpos : 0 < (st.freeList c).length := by
      have hc := hco c
      rw [if_pos rfl] at hc
      omega
    obtain ⟨info, st₁, hst₁, hlen⟩ := h.exists_renameRel (hfit.flatten_lt hcls) (hfit.zero hcls) hpos
    refine ⟨_, _, bind_eq_ok.2 ⟨_, hcls, bind_eq_ok.2 ⟨_, bind_eq_ok.2 ⟨_, hst₁, rfl⟩, rfl⟩⟩, ?_⟩
    intro c'
    have hc := hco c'
    have hl := hlen c'
    dsimp only
    by_cases heq : c' = c
    · rw [if_pos heq] at hl
      rw [if_pos (congrArg RegClass.renamed heq)] at hc
      omega
    · rw [if_neg heq] at hl
      rw [if_neg fun hr => heq (RegClass.renamed.inj hr)] at hc
      omega
  · refine ⟨_, _, bind_eq_ok.2 ⟨_, hcls, rfl⟩, ?_⟩
    intro c
    exact (Nat.le_add_right _ _).trans (hco c)

/-- **An instruction is renamed if enough registers are free**, as `canRename` checks. -/
theorem Rename.Sound.exists_renameDestRegs (h : st.Sound)
    (hn : ∀ c, (st.stock c).Nodup) (hf : ∀ destReg ∈ destRegs, st.Fits inst destReg)
    (hfree : ∀ c, numDestRegs cfg.isa destRegs c ≤ (st.freeList c).length) :
    ∃ dests st', Rename.renameDestRegs inst destRegs st = .ok (dests, st') := by
  induction destRegs generalizing st with
  | nil => exact ⟨[], st, rfl⟩
  | cons destReg destRegs ih =>
    obtain ⟨dest, st₁, hst₁, hf₁⟩ := h.exists_renameDestReg (hf destReg mem_cons_self) hfree
    obtain ⟨hke, -, -, -⟩ := h.renameDestReg hn hst₁
    have hfi₁ : ∀ destReg ∈ destRegs, st₁.Fits inst destReg := by
      intro d hd
      obtain ⟨hex, hlt, hzero⟩ := hf d (mem_cons_of_mem _ hd)
      refine ⟨hex, hlt, fun {c rel} hcls heq => ?_⟩
      rw [hke.zero ⟨c, inst.flatten c rel, hlt hcls⟩ heq]
      exact hzero hcls heq
    obtain ⟨dests, st', hst'⟩ := ih hke.sound (fun c => hke.stock c ▸ hn c) hfi₁ hf₁
    exact ⟨dest :: dests, st', bind_eq_ok.2 ⟨_, hst₁, bind_eq_ok.2 ⟨_, hst', rfl⟩⟩⟩

end

/-! ## Giving registers back -/

section

variable {st : Rename cfg} {entry : RenameHistory} {rest : List RenameHistory} {n : Nat}

/-- The rename stage with another history buffer: a loop changes it only when it is done. -/
def Rename.withHistory (st : Rename cfg) (history : List RenameHistory) : Rename cfg :=
  { st with historyBuffer := history }

/-- A freed register of a class is one more in the stock of that class. -/
theorem coe_update_append (freeList : UnifiedFreeList) (c c' : RenamedClass) (reg : Nat) :
    ((update freeList c (freeList c ++ [reg]) c' : List Nat) : Multiset Nat) =
      freeList c' + if c' = c then {reg} else 0 := by
  split_ifs with hc
  · subst hc
    rw [update_self, ← Multiset.coe_add]
    rfl
  · rw [update_of_ne hc, add_zero]

theorem isPhysReg_of_mem_update {freeList : UnifiedFreeList} {c : RenamedClass} {reg : Nat}
    (hfree : ∀ c, ∀ p ∈ freeList c, cfg.regFile.isPhysReg c p = true) (hreg : cfg.regFile.isPhysReg c reg = true) :
    ∀ c', ∀ p ∈ update freeList c (freeList c ++ [reg]) c', cfg.regFile.isPhysReg c' p = true := by
  intro c' p hp
  rcases eq_or_ne c' c with rfl | hc
  · rw [update_self, mem_append, mem_singleton] at hp
    rcases hp with hp | rfl
    · exact hfree c' p hp
    · exact hreg
  · rw [update_of_ne hc] at hp
    exact hfree c' p hp

/-- Undoing the newest entry. -/
theorem Rename.Sound.undoEntry (h : (st.withHistory (entry :: rest)).Sound) : ∃ st', st.undoEntry entry = .ok st' ∧
      (st.withHistory (entry :: rest)).Keeps (st'.withHistory rest) ∧
      st'.renameMap = undo st.renameMap (changes cfg [entry.toRenamed]) := by
  obtain ⟨dest, seqNum⟩ := entry
  have hde : dest.Ok cfg := h.history dest mem_cons_self
  have hres : ∀ d ∈ destsOf rest, d.Ok cfg := fun d hd => h.history d (mem_cons_of_mem _ hd)
  have hlea := h.leadsTo
  dsimp only [withHistory] at hlea
  rw [destsOf, map_cons] at hlea
  rcases hde with @⟨r, new, prev, hnew, hprev, hzero⟩ | @⟨rel, hrel⟩
  · rw [changes_cons_renamed] at hlea
    rw [undoEntry]
    by_cases hre : new = prev
    · -- The mapping was no change, so that nothing is done.
      subst hre
      have hnow : st.renameMap r = new := hlea.1
      have hmap : update st.renameMap r new = st.renameMap := by
        rw [← hnow, update_eq_self]
      refine ⟨st, if_neg (not_not.2 rfl), ⟨⟨h.free, h.mapped, hres, ?_⟩, ?_, fun _ _ => rfl⟩, ?_⟩
      · exact hmap ▸ hlea.2
      · intro c
        dsimp only [stock, withHistory]
        rw [destsOf, destsOf, map_cons, changes_cons_renamed, account_cons_of_eq rfl]
      · rw [changes_cons_renamed]
        exact hmap.symm
    · refine ⟨{ st with
          renameMap := update st.renameMap r prev
          freeList := update st.freeList r.1 (st.freeList r.1 ++ [new]) }, ?_, ?_, ?_⟩
      · rw [if_pos hre, RenameMap.setEntry_unified _ r hprev, ok_bind, UnifiedFreeList.addReg_eq hnew, ok_bind]
      · refine ⟨⟨isPhysReg_of_mem_update h.free hnew, ?_, hres, hlea.2⟩, ?_, ?_⟩
        · intro r'
          dsimp only [withHistory]
          rcases eq_or_ne r' r with rfl | hr
          · rwa [update_self]
          · rw [update_of_ne hr]
            exact h.mapped r'
        · intro c
          dsimp only [stock, withHistory]
          rw [coe_update_append, destsOf, destsOf, map_cons, changes_cons_renamed]
          split_ifs with hc
          · rw [account_undo hlea (mem_regsIn.2 hc.symm) hre, add_assoc]
          · rw [add_zero, ← account_undo_of_not_mem (mt mem_regsIn.1 (Ne.symm hc))]
        · intro r' hr'
          have hne : r' ≠ r := by
            rintro rfl
            exact hre (hzero hr')
          exact update_of_ne hne _ _
      · rw [changes_cons_renamed]
        rfl
  · rw [changes_cons_misc hrel] at hlea
    refine ⟨st, if_neg (not_not.2 rfl), ⟨⟨h.free, h.mapped, hres, hlea⟩, ?_, fun _ _ => rfl⟩, ?_⟩
    · intro c
      dsimp only [stock, withHistory]
      rw [destsOf, destsOf, map_cons, changes_cons_misc hrel]
    · rw [changes_cons_misc hrel]
      rfl

variable {history : List RenameHistory}

/-- **A squash** undoes the entries younger than its number, and no assertion of it fails. -/
theorem Rename.Sound.squashLoop (h : (st.withHistory history).Sound) :
    ∃ st', squashLoop n history st = .ok st' ∧ (st.withHistory history).Keeps st' ∧
      st'.historyBuffer = history.dropWhile (fun entry => n < entry.instSeqNum) ∧
      st'.renameMap = undo st.renameMap
        (changes cfg (destsOf (history.takeWhile fun entry => n < entry.instSeqNum))) := by
  induction history generalizing st with
  | nil => exact ⟨_, rfl, h.keeps, rfl, rfl⟩
  | cons entry rest ih =>
    rw [squashLoop]
    by_cases hn : n < entry.instSeqNum
    · obtain ⟨st₁, hst₁, hke, hmap⟩ := h.undoEntry
      obtain ⟨st', hst', hk', hh, hmap'⟩ := ih hke.sound
      refine ⟨st', ?_, hke.trans hk', ?_, ?_⟩
      · rw [if_pos hn, hst₁, ok_bind, hst']
      · rw [hh, dropWhile_cons_of_pos (by simpa using hn)]
      · rw [hmap', hmap, takeWhile_cons_of_pos (by simpa using hn), ← undo_append, ← changes_append]
        rfl
    · refine ⟨_, if_neg hn, h.keeps, ?_, ?_⟩
      · rw [dropWhile_cons_of_neg (by simpa using hn)]
      · rw [takeWhile_cons_of_neg (by simpa using hn)]
        rfl

theorem Rename.Sound.doSquash (h : st.Sound) : ∃ st', st.doSquash n = .ok st' ∧ st.Keeps st' ∧
      st'.historyBuffer = st.historyBuffer.dropWhile (fun entry => n < entry.instSeqNum) ∧
      st'.renameMap = undo st.renameMap
        (changes cfg (destsOf (st.historyBuffer.takeWhile fun entry => n < entry.instSeqNum))) :=
  Rename.Sound.squashLoop h

theorem account_concat (S : Finset cfg.isa.ArchReg) (map : RenameMap cfg) (dests : List Renamed) (dest : Renamed) :
    account S map (changes cfg (dests ++ [dest])) =
      held S (changes cfg [dest]) + account S map (changes cfg dests) := by
  rw [account, account, changes_append, held_append, add_comm (held S (changes cfg [dest])), ← add_assoc]

/-- Dropping the oldest entry. -/
theorem Rename.Sound.freePrev (h : (st.withHistory (rest ++ [entry])).Sound) : ∃ st', st.freePrev entry = .ok st' ∧
      (st.withHistory (rest ++ [entry])).Keeps (st'.withHistory rest) ∧
      st'.renameMap = st.renameMap := by
  obtain ⟨dest, seqNum⟩ := entry
  have hsp : destsOf (rest ++ [⟨dest, seqNum⟩]) = destsOf rest ++ [dest] := map_append
  have hde : dest.Ok cfg := h.history dest (by simp [withHistory, hsp])
  have hres : ∀ d ∈ destsOf rest, d.Ok cfg := by
    intro d hd
    exact h.history d (by simp [withHistory, hsp, hd])
  have hlea : LeadsTo st.renameMap (changes cfg (destsOf rest)) := by
    have hall := h.leadsTo
    dsimp only [withHistory] at hall
    rw [hsp, changes_append] at hall
    exact (leadsTo_append.1 hall).1
  rw [freePrev]
  by_cases hre : dest.newPhysReg = dest.prevPhysReg
  · refine ⟨st, if_neg (not_not.2 hre), ⟨⟨h.free, h.mapped, hres, hlea⟩, ?_, fun _ _ => rfl⟩, rfl⟩
    intro c
    dsimp only [stock, withHistory]
    rw [hsp, account_concat]
    rcases hde with @⟨r, new, prev, hnew, hprev, hzero⟩ | @⟨rel, hrel⟩
    · rw [changes_cons_renamed, held_cons_of_eq hre, changes_nil, held_nil, zero_add]
    · rw [changes_cons_misc hrel, changes_nil, held_nil, zero_add]
  · rcases hde with @⟨r, new, prev, hnew, hprev, hzero⟩ | @⟨rel, hrel⟩
    · refine ⟨{ st with freeList := update st.freeList r.1 (st.freeList r.1 ++ [prev]) },
        ?_, ⟨⟨isPhysReg_of_mem_update h.free hprev, h.mapped, hres, hlea⟩, ?_, fun _ _ => rfl⟩,
        rfl⟩
      · rw [if_pos hre, UnifiedFreeList.addReg_eq hprev, ok_bind]
      · intro c
        dsimp only [stock, withHistory]
        rw [coe_update_append, hsp, account_concat, changes_cons_renamed, changes_nil]
        split_ifs with hc
        · rw [held_cons_of_real (mem_regsIn.2 hc.symm) hre, held_nil, add_zero, add_assoc]
        · rw [held_cons_of_not_mem (mt mem_regsIn.1 (Ne.symm hc)), held_nil, zero_add, add_zero]
    · exact absurd rfl hre

theorem Rename.Sound.removeLoop (h : (st.withHistory history.reverse).Sound) :
    ∃ st', removeLoop n history st = .ok st' ∧ (st.withHistory history.reverse).Keeps st' ∧
      st'.historyBuffer = (history.dropWhile fun entry => entry.instSeqNum ≤ n).reverse ∧
      st'.renameMap = st.renameMap := by
  induction history generalizing st with
  | nil => exact ⟨_, rfl, h.keeps, rfl, rfl⟩
  | cons entry rest ih =>
    rw [removeLoop]
    by_cases hn : entry.instSeqNum ≤ n
    · rw [reverse_cons] at h
      obtain ⟨st₁, hst₁, hke, hmap⟩ := h.freePrev
      obtain ⟨st', hst', hk', hh, hmap'⟩ := ih hke.sound
      refine ⟨st', ?_, ?_, ?_, hmap'.trans hmap⟩
      · rw [if_pos hn, hst₁, ok_bind, hst']
      · rw [reverse_cons]
        exact hke.trans hk'
      · rw [hh, dropWhile_cons_of_pos (by simpa using hn)]
    · refine ⟨_, if_neg hn, h.keeps, ?_, rfl⟩
      rw [dropWhile_cons_of_neg (by simpa using hn)]

/-- **Removing committed instructions** drops entries from the back of the history buffer up to the
committed number, and no assertion of it fails. -/
theorem Rename.Sound.removeFromHistory (h : st.Sound) : ∃ st', st.removeFromHistory n = .ok st' ∧ st.Keeps st' ∧
      st'.historyBuffer = (st.historyBuffer.reverse.dropWhile fun entry => entry.instSeqNum ≤ n).reverse ∧
      st'.renameMap = st.renameMap := by
  rw [Rename.removeFromHistory]
  split
  · rename_i hem
    refine ⟨st, rfl, h.keeps, ?_, rfl⟩
    rw [hem, reverse_eq_nil_iff.1 hem]
    rfl
  · rename_i oldest rest hre
    by_cases hn : oldest.instSeqNum > n
    · refine ⟨st, if_pos hn, h.keeps, ?_, rfl⟩
      rw [hre, dropWhile_cons_of_neg (by simpa using hn), ← hre, reverse_reverse]
    have hso : (st.withHistory (oldest :: rest).reverse).Sound := by
      rw [← hre, reverse_reverse]
      exact h
    obtain ⟨st', hst', hke, hh, hmap⟩ := Rename.Sound.removeLoop (n := n) hso
    refine ⟨st', (if_neg hn).trans hst', ?_, hre ▸ hh, hmap⟩
    rwa [← hre, reverse_reverse] at hke

end

end GuardianCouncil.O3
