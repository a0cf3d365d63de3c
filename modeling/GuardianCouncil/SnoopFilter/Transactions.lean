import GuardianCouncil.SnoopFilter.Filter

/-!
# What a transaction does to the snoop filter

The masks of the filter are sets of ports (`Config.Has`).  Every transaction leaves the entries as they
are or writes the entry of the line of its packet (`Filter.exec_cases`), and no entry is empty afterwards
(`Filter.nonNull_exec`).
-/

namespace GuardianCouncil.SnoopFilter

open Fallible List

/-! ## Masks -/

namespace Config

variable (cfg : Config) {m m' : SnoopMask} {p q : Nat}

abbrev Has (m : SnoopMask) (p : Nat) : Prop := OneHot.Has cfg.slavePorts m p

theorem mem_slavePorts : p ∈ cfg.slavePorts ↔ cfg.isSnooping p = true := by
  rw [slavePorts, mem_filter, mem_range, and_iff_right_iff_imp]
  intro h
  by_contra hlt
  rw [isSnooping, getD_eq_getElem?_getD, getElem?_eq_none (Nat.not_lt.1 hlt)] at h
  cases h

theorem length_slavePorts_le : cfg.slavePorts.length ≤ 64 := by
  have hpo : (List.range cfg.ports.length).map cfg.isSnooping = cfg.ports := by
    refine ext_getElem (by simp) fun i _ hi => ?_
    simp [isSnooping, getD_eq_getElem?_getD, getElem?_eq_getElem hi]
  calc cfg.slavePorts.length
      = ((List.range cfg.ports.length).map cfg.isSnooping).count true := by
        rw [slavePorts, ← countP_eq_length_filter, List.count, countP_map]
        simp [Function.comp_def]
    _ = cfg.ports.count true := by rw [hpo]
    _ ≤ 64 := cfg.snooping_le

theorem portToMask_eq : cfg.portToMask p = OneHot.mask cfg.slavePorts 64 p := by
  by_cases hp : cfg.isSnooping p
  · rw [portToMask, OneHot.mask, if_pos (cfg.mem_slavePorts.2 hp), hp]
    rfl
  · rw [portToMask, OneHot.mask, if_neg fun h => hp (cfg.mem_slavePorts.1 h), if_pos (by simp [hp])]
    rfl

theorem mem_maskToPortList : p ∈ cfg.maskToPortList m ↔ cfg.Has m p := by
  rw [maskToPortList, mem_filter, decide_eq_true_eq, portToMask_eq]
  exact ⟨fun h => h.2, fun h => ⟨OneHot.mem_of_has h, h⟩⟩

theorem has_or_iff : cfg.Has (m ||| m') p ↔ cfg.Has m p ∨ cfg.Has m' p :=
  OneHot.has_or_iff cfg.length_slavePorts_le

theorem has_portToMask_iff : cfg.Has (cfg.portToMask q) p ↔ cfg.isSnooping p = true ∧ p = q := by
  rw [portToMask_eq, Has, OneHot.has_mask_iff cfg.length_slavePorts_le, mem_slavePorts]

theorem has_and_not_portToMask_iff : cfg.Has (m &&& ~~~cfg.portToMask q) p ↔ cfg.Has m p ∧ p ≠ q := by
  rw [portToMask_eq]
  exact OneHot.has_and_not_mask_iff cfg.length_slavePorts_le

end Config

/-! ## Entries -/

namespace SnoopItem

variable {cfg : Config} {item : SnoopItem} {p : Nat}

theorem isNull_eq_false_iff : item.isNull = false ↔ item.requested ≠ 0 ∨ item.holder ≠ 0 := by
  have hzero : item.requested ||| item.holder = 0#64 ↔ item.requested = 0#64 ∧ item.holder = 0#64 :=
    BitVec.or_eq_zero_iff
  rw [isNull, decide_eq_false_iff_not]
  exact (not_congr hzero).trans not_and_or

theorem not_isNull_of_holder (h : cfg.Has item.holder p) : item.isNull = false :=
  isNull_eq_false_iff.2 (.inr (OneHot.ne_zero_of_has h))

theorem not_isNull_of_requested (h : cfg.Has item.requested p) : item.isNull = false :=
  isNull_eq_false_iff.2 (.inl (OneHot.ne_zero_of_has h))

end SnoopItem

/-- An entry is written, and erased if nothing is in it. -/
def store (cached : SnoopFilterCache) (line : Addr) (item : SnoopItem) : SnoopFilterCache :=
  eraseIfNullEntry (cached.insert line item) line

/-- There are no empty entries. -/
def NonNull (cached : SnoopFilterCache) : Prop :=
  ∀ line item, cached.lookup line = some item → item.isNull = false

/-- The line has an entry, and it has `P`. -/
def At (P : SnoopItem → Prop) (cached : SnoopFilterCache) (line : Addr) : Prop :=
  ∃ item, cached.lookup line = some item ∧ P item

section

variable {cached : SnoopFilterCache} {line line' : Addr} {item : SnoopItem} {P : SnoopItem → Prop}

theorem store_eq : store cached line item =
    if item.isNull then (cached.insert line item).erase line else cached.insert line item := by
  rw [store, eraseIfNullEntry, Finmap.lookup_insert]

theorem lookup_store_self : (store cached line item).lookup line = if item.isNull then none else some item := by
  rw [store_eq]
  by_cases hn : item.isNull
  · rw [if_pos hn, if_pos hn, Finmap.lookup_erase]
  · rw [if_neg hn, if_neg hn, Finmap.lookup_insert]

theorem lookup_store_of_ne (hne : line' ≠ line) : (store cached line item).lookup line' = cached.lookup line' := by
  rw [store_eq]
  by_cases hn : item.isNull
  · rw [if_pos hn, Finmap.lookup_erase_ne hne, Finmap.lookup_insert_of_ne _ hne]
  · rw [if_neg hn, Finmap.lookup_insert_of_ne _ hne]

theorem NonNull.store (h : NonNull cached) : NonNull (store cached line item) := by
  intro line' item' hlo
  by_cases hli : line' = line
  · subst hli
    rw [lookup_store_self] at hlo
    by_cases hn : item.isNull
    · rw [if_pos hn] at hlo
      cases hlo
    · rw [if_neg hn] at hlo
      rw [← Option.some.inj hlo]
      exact Bool.eq_false_iff.2 hn
  · rw [lookup_store_of_ne hli] at hlo
    exact h line' item' hlo

/-- Writing an entry as it was. -/
theorem NonNull.store_self (h : NonNull cached) :
    SnoopFilter.store cached line ((cached.lookup line).getD ⟨0, 0⟩) = cached := by
  refine Finmap.ext_lookup fun line' => ?_
  by_cases hli : line' = line
  · subst hli
    rw [lookup_store_self]
    rcases hlo : cached.lookup line' with _ | item
    · rfl
    · rw [Option.getD_some, h line' item hlo]
      rfl
  · rw [lookup_store_of_ne hli]

theorem at_store_self (hP : P item) (hn : item.isNull = false) : At P (store cached line item) line :=
  ⟨item, by rw [lookup_store_self, hn]; rfl, hP⟩

end

/-! ## What a transaction does -/

/-- The line that a transaction is about. -/
def Transaction.line (cfg : Config) : Transaction → Addr
  | .request pkt _ _ | .snoop pkt | .snoopResponse pkt _ _ | .snoopForward pkt
  | .response pkt _ => cfg.line pkt

/-- What a transaction writes for its line. -/
inductive Update (cfg : Config) : Transaction → Option SnoopItem → SnoopItem → Prop
  | request {pkt port old item} (hallocates : cfg.allocates pkt port = true)
      (hmark : Filter.markRequest pkt (cfg.portToMask port) (old.getD ⟨0, 0⟩) = .ok item) :
      Update cfg (.request pkt port false) old item
  | snoop {pkt item} : Update cfg (.snoop pkt) (some item) (Filter.snoopedItem pkt item)
  | snoopResponse {pkt rspPort reqPort item} (hcacheable : pkt.isUncacheable = false)
      (hsnooping : cfg.isSnooping reqPort = true) :
      Update cfg (.snoopResponse pkt rspPort reqPort) (some item)
        (Filter.filledItem (cfg.portToMask reqPort) (Filter.droppedItem pkt item))
  | snoopForward {pkt item} : Update cfg (.snoopForward pkt) (some item) (Filter.droppedItem pkt item)
  | response {pkt port item} (hcacheable : pkt.isUncacheable = false)
      (hsnooping : cfg.isSnooping port = true) :
      Update cfg (.response pkt port) (some item) (Filter.filledItem (cfg.portToMask port) item)

namespace Filter

variable {cfg : Config} {s s' : Filter cfg} {pkt : Packet} {port rspPort reqPort : Nat}
  {willRetry : Bool} {out : List Nat × Nat} {t : Transaction}

/-- The line of a transaction is written. -/
def Writes (s : Filter cfg) (t : Transaction) (s' : Filter cfg) : Prop :=
  ∃ item, Update cfg t (s.cachedLocations.lookup (t.line cfg)) item ∧
    s'.cachedLocations = store s.cachedLocations (t.line cfg) item

theorem Writes.of_lookup {old : Option SnoopItem} {item : SnoopItem}
    (hlo : s.cachedLocations.lookup (t.line cfg) = old) (hup : Update cfg t old item)
    (hca : s'.cachedLocations = store s.cachedLocations (t.line cfg) item) : s.Writes t s' := by
  subst hlo
  exact ⟨item, hup, hca⟩

theorem lookupRequest_eq_ok (h : s.lookupRequest pkt port = .ok (out, s')) :
    (s.cachedLocations.lookup (cfg.line pkt) = none ∧ cfg.allocates pkt port = false ∧
      s'.reqLookupResult = none ∧ s'.cachedLocations = s.cachedLocations) ∨
    let item := (s.cachedLocations.lookup (cfg.line pkt)).getD ⟨0, 0⟩
    out = cfg.snoopSelected
        (cfg.maskToPortList (item.interested &&& ~~~cfg.portToMask port)) ∧
      s'.reqLookupResult = some (cfg.line pkt) ∧ s'.retryItem = item ∧
      ∃ item', s'.cachedLocations = s.cachedLocations.insert (cfg.line pkt) item' ∧
        (cfg.allocates pkt port = false ∧ item' = item ∨ cfg.allocates pkt port = true ∧
            markRequest pkt (cfg.portToMask port) item = .ok item') := by
  simp only [lookupRequest] at h
  split at h
  · rename_i hm
    cases h
    simp only [Bool.and_eq_true, Option.isNone_iff_eq_none, Bool.not_eq_true'] at hm
    exact .inl ⟨hm.1, hm.2, rfl, rfl⟩
  · right
    split at h
    · rename_i hallocates
      cases h
      exact ⟨rfl, rfl, rfl, _, rfl, .inl ⟨by simpa using hallocates, rfl⟩⟩
    · rename_i hallocates
      obtain ⟨item', hmark, h⟩ := bind_eq_ok.1 h
      cases h
      refine ⟨rfl, rfl, rfl, item', Finmap.insert_insert _, .inr ⟨by simpa using hallocates, hmark⟩⟩

/-- What a request from a cache may do to its entry. -/
theorem markRequest_eq_ok {reqPort : SnoopMask} {item item' : SnoopItem}
    (h : markRequest pkt reqPort item = .ok item') : (pkt.cmd.needsResponse = true ∧ pkt.cacheResponding = false ∧
      item' = { item with requested := item.requested ||| reqPort }) ∨
    ((pkt.cmd.needsResponse = true → pkt.cacheResponding = true) ∧ item' = item) ∨
    (pkt.cmd.needsResponse = false ∧ pkt.cmd.isEviction = true ∧ pkt.isBlockCached = false ∧
      item' = { item with holder := item.holder &&& ~~~reqPort }) := by
  rw [markRequest] at h
  by_cases hn : pkt.cmd.needsResponse
  · rw [if_pos hn] at h
    by_cases hre : pkt.cacheResponding
    · rw [if_neg (by simp [hre])] at h
      obtain ⟨-, h⟩ := check_eq_ok.1 h
      cases h
      exact .inr (.inl ⟨fun _ => hre, rfl⟩)
    · rw [if_pos (by simp [hre])] at h
      obtain ⟨-, h⟩ := check_eq_ok.1 h
      cases h
      exact .inl ⟨hn, Bool.eq_false_iff.2 hre, rfl⟩
  · rw [if_neg hn] at h
    obtain ⟨hev, h⟩ := check_eq_ok.1 h
    obtain ⟨-, h⟩ := check_eq_ok.1 h
    by_cases hca : pkt.isBlockCached
    · rw [if_neg (by simp [hca])] at h
      cases h
      exact .inr (.inl ⟨fun h => absurd h hn, rfl⟩)
    · rw [if_pos (by simp [hca])] at h
      cases h
      exact .inr (.inr ⟨Bool.eq_false_iff.2 hn, by simpa using hev, Bool.eq_false_iff.2 hca, rfl⟩)

theorem finishRequest_eq_ok {addr : Addr} {isSecure : Bool} (h : s.finishRequest willRetry addr isSecure = .ok s') :
    (s.reqLookupResult = none ∧ s' = s) ∨ ∃ line, s.reqLookupResult = some line ∧ s'.cachedLocations = eraseIfNullEntry
        (if willRetry then s.cachedLocations.insert line s.retryItem else s.cachedLocations) line := by
  rw [finishRequest] at h
  rcases hre : s.reqLookupResult with _ | line
  · rw [hre] at h
    cases h
    exact .inl ⟨rfl, rfl⟩
  · rw [hre] at h
    obtain ⟨-, h⟩ := check_eq_ok.1 h
    cases h
    exact .inr ⟨line, rfl, rfl⟩

/-- A request is entered if it comes from a cache, and taken back if it has to come again. -/
theorem request_cases (hnn : NonNull s.cachedLocations) (h : s.exec (.request pkt port willRetry) = .ok s') :
    cfg.allocates pkt port = false ∧ s'.cachedLocations = s.cachedLocations ∨
    cfg.allocates pkt port = true ∧
      let item := (s.cachedLocations.lookup (cfg.line pkt)).getD ⟨0, 0⟩
      ∃ item', markRequest pkt (cfg.portToMask port) item = .ok item' ∧ s'.cachedLocations =
          store s.cachedLocations (cfg.line pkt) (if willRetry then item else item') := by
  obtain ⟨⟨out, s₁⟩, hlo, h⟩ := bind_eq_ok.1 h
  rcases lookupRequest_eq_ok hlo with ⟨-, hallocates, hn, hca⟩ | ⟨-, hre, hret, item', hca, hite⟩
  · rcases finishRequest_eq_ok h with ⟨-, rfl⟩ | ⟨line, hli, -⟩
    · exact .inl ⟨hallocates, hca⟩
    · rw [hn] at hli
      cases hli
  · -- what `finishRequest` writes
    have hwr : s'.cachedLocations = store s.cachedLocations (cfg.line pkt)
        (if willRetry then (s.cachedLocations.lookup (cfg.line pkt)).getD ⟨0, 0⟩ else item') := by
      rcases finishRequest_eq_ok h with ⟨hn, -⟩ | ⟨line, hli, hca'⟩
      · rw [hre] at hn
        cases hn
      rw [hre] at hli
      cases hli
      rw [hca', hca, hret, store]
      rcases willRetry with _ | _
      · rfl
      · exact congrArg (eraseIfNullEntry · _) (Finmap.insert_insert _)
    rcases hite with ⟨hallocates, rfl⟩ | ⟨hallocates, hmark⟩
    · rw [ite_self, hnn.store_self] at hwr
      exact .inl ⟨hallocates, hwr⟩
    · exact .inr ⟨hallocates, item', hmark, hwr⟩

/-- **A request that has to come again leaves no trace.** -/
theorem request_retry (hnn : NonNull s.cachedLocations)
    (h : s.exec (.request pkt port true) = .ok s') : s'.cachedLocations = s.cachedLocations := by
  rcases request_cases hnn h with ⟨-, hca⟩ | ⟨-, item', -, hca⟩
  · exact hca
  · rw [hca, if_pos rfl, hnn.store_self]

theorem snoop_cases (h : s.lookupSnoop pkt = .ok (out, s')) :
    (s.cachedLocations.lookup (cfg.line pkt) = none ∧ s' = s) ∨
      ∃ item, s.cachedLocations.lookup (cfg.line pkt) = some item ∧
        out = cfg.snoopSelected (cfg.maskToPortList item.interested) ∧
        s'.cachedLocations = store s.cachedLocations (cfg.line pkt) (snoopedItem pkt item) := by
  simp only [lookupSnoop] at h
  obtain ⟨-, h⟩ := check_eq_ok.1 h
  rcases hlo : s.cachedLocations.lookup (cfg.line pkt) with _ | item
  · rw [hlo] at h
    obtain ⟨-, h⟩ := check_eq_ok.1 h
    cases h
    exact .inl ⟨rfl, rfl⟩
  · rw [hlo] at h
    obtain ⟨-, h⟩ := check_eq_ok.1 h
    cases h
    exact .inr ⟨item, rfl, rfl, rfl⟩

/-- A response to a cache below is entered, if the line has an entry. -/
theorem response_cases (h : s.exec (.response pkt port) = .ok s') :
    (pkt.isUncacheable = true ∨ cfg.isSnooping port = false ∨ s.cachedLocations.lookup (cfg.line pkt) = none) ∧ s' = s ∨
      s.Writes (.response pkt port) s' := by
  simp only [exec, updateResponse] at h
  obtain ⟨-, h⟩ := check_eq_ok.1 h
  split_ifs at h with hsk
  · cases h
    simp only [Bool.or_eq_true, Bool.not_eq_true'] at hsk
    exact .inl ⟨hsk.imp_right .inl, rfl⟩
  simp only [Bool.or_eq_true, Bool.not_eq_true', not_or, Bool.not_eq_true, Bool.not_eq_false] at hsk
  rcases hlo : s.cachedLocations.lookup (cfg.line pkt) with _ | item
  · rw [hlo] at h
    cases h
    exact .inl ⟨.inr (.inr rfl), rfl⟩
  rw [hlo] at h
  obtain ⟨-, h⟩ := check_eq_ok.1 h
  obtain ⟨hn, h⟩ := check_eq_ok.1 h
  cases h
  refine .inr (.of_lookup hlo (.response hsk.1 hsk.2) ?_)
  rw [store_eq, if_neg hn]
  rfl

theorem snoopResponse_cases (h : s.exec (.snoopResponse pkt rspPort reqPort) = .ok s') :
    (pkt.isUncacheable = true ∨ cfg.isSnooping reqPort = false) ∧ s' = s ∨
      s.Writes (.snoopResponse pkt rspPort reqPort) s' := by
  simp only [exec, updateSnoopResponse] at h
  obtain ⟨-, h⟩ := check_eq_ok.1 h
  split at h
  · rename_i hsk
    cases h
    simp only [Bool.or_eq_true, Bool.not_eq_true'] at hsk
    exact .inl ⟨hsk, rfl⟩
  · rename_i hsk
    simp only [Bool.or_eq_true, Bool.not_eq_true', not_or, Bool.not_eq_true, Bool.not_eq_false] at hsk
    obtain ⟨hh, h⟩ := check_eq_ok.1 h
    obtain ⟨-, h⟩ := check_eq_ok.1 h
    obtain ⟨-, h⟩ := check_eq_ok.1 h
    obtain ⟨hn, h⟩ := check_eq_ok.1 h
    cases h
    -- the sender of the response is a holder, so there is an entry
    rcases hlo : s.cachedLocations.lookup (cfg.line pkt) with _ | item
    · rw [hlo] at hh
      exact absurd BitVec.zero_and hh
    · rw [hlo, Option.getD_some] at hn
      refine .inr (.of_lookup hlo (.snoopResponse hsk.1 hsk.2) ?_)
      rw [store_eq, if_neg hn]
      rfl

theorem snoopForward_cases (h : s.exec (.snoopForward pkt) = .ok s') : s' = s ∨ s.Writes (.snoopForward pkt) s' := by
  simp only [exec, updateSnoopForward] at h
  obtain ⟨-, h⟩ := check_eq_ok.1 h
  rcases hlo : s.cachedLocations.lookup (cfg.line pkt) with _ | item
  · rw [hlo] at h
    cases h
    exact .inl rfl
  · rw [hlo] at h
    cases h
    exact .inr (.of_lookup hlo .snoopForward rfl)

/-- **One transaction** changes nothing, or writes the entry of its line. -/
theorem exec_cases (hnn : NonNull s.cachedLocations) (h : s.exec t = .ok s') :
    s'.cachedLocations = s.cachedLocations ∨ s.Writes t s' := by
  rcases t with ⟨pkt, port, _ | _⟩ | ⟨pkt⟩ | ⟨pkt, rspPort, reqPort⟩ | ⟨pkt⟩ | ⟨pkt, port⟩
  · rcases request_cases hnn h with ⟨-, hca⟩ | ⟨hallocates, item, hmark, hca⟩
    · exact .inl hca
    · exact .inr ⟨item, .request hallocates hmark, hca⟩
  · exact .inl (request_retry hnn h)
  · obtain ⟨⟨out, s₁⟩, hlo, h⟩ := bind_eq_ok.1 h
    cases h
    rcases snoop_cases hlo with ⟨-, rfl⟩ | ⟨item, hite, -, hca⟩
    · exact .inl rfl
    · exact .inr (.of_lookup hite .snoop hca)
  · rcases snoopResponse_cases h with ⟨-, rfl⟩ | hwr
    · exact .inl rfl
    · exact .inr hwr
  · rcases snoopForward_cases h with rfl | hwr
    · exact .inl rfl
    · exact .inr hwr
  · rcases response_cases h with ⟨-, rfl⟩ | hwr
    · exact .inl rfl
    · exact .inr hwr

theorem nonNull_exec (hnn : NonNull s.cachedLocations) (h : s.exec t = .ok s') : NonNull s'.cachedLocations := by
  rcases exec_cases hnn h with hca | ⟨item, -, hca⟩
  · rw [hca]
    exact hnn
  · rw [hca]
    exact hnn.store

end Filter

end GuardianCouncil.SnoopFilter
