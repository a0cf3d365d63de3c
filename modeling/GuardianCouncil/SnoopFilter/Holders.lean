import GuardianCouncil.SnoopFilter.Transactions

/-!
# Holders are snooped

What the filter knows of one port and one line is followed through a run, transaction by transaction.
A port that has got a line stays a holder until one of the transactions in `Ends`.
-/

namespace GuardianCouncil.SnoopFilter

open Fallible

/-! ## Holders and requesters -/

/-- The port may have a copy of the line. -/
def Filter.Holds {cfg : Config} (s : Filter cfg) (port : Nat) (line : Addr) : Prop :=
  At (fun item => cfg.Has item.holder port) s.cachedLocations line

open Filter

/-- The port has asked for the line. -/
def Filter.Requests {cfg : Config} (s : Filter cfg) (port : Nat) (line : Addr) : Prop :=
  At (fun item => cfg.Has item.requested port) s.cachedLocations line

/-- The transaction ends what the filter knows of the port's copy of the line: the port evicts the
line and there is no copy above, or the line is invalidated by a snoop or goes to another cache without
sharers. -/
def Ends (cfg : Config) (port : Nat) (line : Addr) : Transaction → Prop
  | .request pkt p willRetry => cfg.line pkt = line ∧ p = port ∧ willRetry = false ∧
    pkt.isUncacheable = false ∧ pkt.cmd.isEviction = true ∧ pkt.isBlockCached = false
  | .snoop pkt => cfg.line pkt = line ∧ pkt.cmd.isInvalidate = true
  | .snoopResponse pkt _ reqPort => cfg.line pkt = line ∧ pkt.isUncacheable = false ∧
    cfg.isSnooping reqPort = true ∧ pkt.hasSharers = false
  | .snoopForward pkt => cfg.line pkt = line ∧ pkt.hasSharers = false
  | .response _ _ => False

instance (cfg : Config) (port : Nat) (line : Addr) : DecidablePred (Ends cfg port line)
  | .request .. | .snoop _ | .snoopResponse .. | .snoopForward _ => inferInstanceAs (Decidable (_ ∧ _))
  | .response _ _ => inferInstanceAs (Decidable False)

/-- The transaction is a response to the port for the line. -/
def Responds (cfg : Config) (port : Nat) (line : Addr) : Transaction → Prop
  | .snoopResponse pkt _ reqPort => cfg.line pkt = line ∧ reqPort = port ∧ pkt.isUncacheable = false
  | .response pkt p => cfg.line pkt = line ∧ p = port ∧ pkt.isUncacheable = false
  | _ => False

/-- A port gets a line: it is answered, and the line has an entry. -/
def Filter.Completes {cfg : Config} (s : Filter cfg) (port : Nat) (line : Addr) : Transaction → Prop
  | .snoopResponse pkt _ reqPort => cfg.line pkt = line ∧ reqPort = port ∧
    pkt.isUncacheable = false ∧ cfg.isSnooping port = true
  | .response pkt p => cfg.line pkt = line ∧ p = port ∧ pkt.isUncacheable = false ∧
    cfg.isSnooping port = true ∧ (s.cachedLocations.lookup line).isSome = true
  | _ => False

/-- The transaction is a request of a cache behind the port for the line, which is accepted and which
no other cache above answers. -/
def Asks (cfg : Config) (port : Nat) (line : Addr) : Transaction → Prop
  | .request pkt p willRetry => cfg.line pkt = line ∧ p = port ∧ willRetry = false ∧
    cfg.allocates pkt p = true ∧ pkt.cmd.needsResponse = true ∧ pkt.cacheResponding = false
  | _ => False

section

variable {cfg : Config} {t : Transaction} {item item' : SnoopItem} {pkt : Packet} {port p : Nat}

theorem Config.of_allocates (h : cfg.allocates pkt port = true) :
    pkt.isUncacheable = false ∧ cfg.isSnooping port = true := by
  simp only [Config.allocates, Bool.and_eq_true, Bool.not_eq_true'] at h
  exact h.1

theorem has_holder_filledItem : cfg.Has (filledItem (cfg.portToMask p) item).holder port ↔
    cfg.Has item.holder port ∨ cfg.isSnooping port = true ∧ port = p := by
  rw [filledItem, cfg.has_or_iff, cfg.has_portToMask_iff]

theorem has_requested_filledItem : cfg.Has (filledItem (cfg.portToMask p) item).requested port ↔
      cfg.Has item.requested port ∧ port ≠ p :=
  cfg.has_and_not_portToMask_iff

theorem droppedItem_of_hasSharers (h : pkt.hasSharers = true) : droppedItem pkt item = item := by
  rw [droppedItem, h]
  rfl

theorem requested_droppedItem : (droppedItem pkt item).requested = item.requested := by
  rw [droppedItem]
  split <;> rfl

theorem requested_snoopedItem : (snoopedItem pkt item).requested = item.requested := by
  rw [snoopedItem]
  split <;> rfl

/-- A holder stays one. -/
theorem Update.holder (h : Update cfg t (some item) item') (hend : ¬ Ends cfg port (t.line cfg) t)
    (hh : cfg.Has item.holder port) : cfg.Has item'.holder port := by
  rcases h with ⟨hallocates, hmark⟩ | _ | ⟨hcacheable, hsnooping⟩ | _ | _
  case request pkt p =>
    rcases markRequest_eq_ok hmark with ⟨-, -, rfl⟩ | ⟨-, rfl⟩ | ⟨-, hev, hca, rfl⟩
    · exact hh
    · exact hh
    · refine cfg.has_and_not_portToMask_iff.2 ⟨hh, fun hp => hend ?_⟩
      exact ⟨rfl, hp.symm, rfl, (Config.of_allocates hallocates).1, hev, hca⟩
  case snoop pkt =>
    rw [snoopedItem, if_neg]
    · exact hh
    · rw [Bool.and_eq_true]
      exact fun h => hend ⟨rfl, h.1⟩
  case snoopResponse pkt rspPort reqPort =>
    rw [droppedItem_of_hasSharers, has_holder_filledItem]
    · exact .inl hh
    · by_contra hnot
      exact hend ⟨rfl, hcacheable, hsnooping, Bool.eq_false_iff.2 hnot⟩
  case snoopForward pkt =>
    rw [droppedItem_of_hasSharers]
    · exact hh
    · by_contra hnot
      exact hend ⟨rfl, Bool.eq_false_iff.2 hnot⟩
  case response pkt p => exact has_holder_filledItem.2 (.inl hh)

/-- A requester stays one. -/
theorem Update.requested (h : Update cfg t (some item) item')
    (hres : ¬ Responds cfg port (t.line cfg) t) (hre : cfg.Has item.requested port) : cfg.Has item'.requested port := by
  rcases h with ⟨hallocates, hmark⟩ | _ | ⟨hcacheable, hsnooping⟩ | _ | ⟨hcacheable, hsnooping⟩
  case request pkt p =>
    rcases markRequest_eq_ok hmark with ⟨-, -, rfl⟩ | ⟨-, rfl⟩ | ⟨-, -, -, rfl⟩
    · exact cfg.has_or_iff.2 (.inl hre)
    · exact hre
    · exact hre
  case snoop pkt =>
    rw [requested_snoopedItem]
    exact hre
  case snoopResponse pkt rspPort reqPort =>
    rw [has_requested_filledItem, requested_droppedItem]
    exact ⟨hre, fun hp => hres ⟨rfl, hp.symm, hcacheable⟩⟩
  case snoopForward pkt =>
    rw [requested_droppedItem]
    exact hre
  case response pkt p =>
    exact has_requested_filledItem.2 ⟨hre, fun hp => hres ⟨rfl, hp.symm, hcacheable⟩⟩

end

namespace Filter

variable {cfg : Config} {s s' s'' : Filter cfg} {t : Transaction} {pkt : Packet} {port : Nat}
  {line : Addr} {out : List Nat × Nat}

section

variable (hnn : NonNull s.cachedLocations) (h : s.exec t = .ok s')
include hnn h

/-- What is known of an entry is kept, if the transactions of its line keep it. -/
theorem at_exec {P : SnoopItem → Prop} (hP : ∀ item, P item → item.isNull = false)
    (hke : t.line cfg = line → ∀ item item', Update cfg t (some item) item' → P item → P item')
    (hat : At P s.cachedLocations line) : At P s'.cachedLocations line := by
  obtain ⟨item, hlo, hite⟩ := hat
  rcases exec_cases hnn h with hca | ⟨item', hup, hca⟩
  · exact ⟨item, by rw [hca, hlo], hite⟩
  rw [hca]
  by_cases hli : t.line cfg = line
  · subst hli
    rw [hlo] at hup
    have hi' := hke rfl item item' hup hite
    exact at_store_self hi' (hP item' hi')
  · exact ⟨item, by rw [lookup_store_of_ne (Ne.symm hli), hlo], hite⟩

theorem Holds.exec (hend : ¬ Ends cfg port line t) (hh : s.Holds port line) : s'.Holds port line := by
  refine at_exec hnn h (fun item => SnoopItem.not_isNull_of_holder) ?_ hh
  rintro rfl item item' hup
  exact hup.holder hend

theorem Requests.exec (hre : ¬ Responds cfg port line t) (hreq : s.Requests port line) : s'.Requests port line := by
  refine at_exec hnn h (fun item => SnoopItem.not_isNull_of_requested) ?_ hreq
  rintro rfl item item' hup
  exact hup.requested hre

end

/-- A holder is in the answer to a snoop. -/
theorem Holds.mem_lookupSnoop (hh : s.Holds port (cfg.line pkt))
    (h : s.lookupSnoop pkt = .ok (out, s')) : port ∈ out.1 := by
  obtain ⟨item, hlo, hite⟩ := hh
  rcases snoop_cases h with ⟨hn, -⟩ | ⟨item', hl', rfl, -⟩
  · rw [hlo] at hn
    cases hn
  · rw [hlo] at hl'
    cases hl'
    exact cfg.mem_maskToPortList.2 (cfg.has_or_iff.2 (.inl hite))

/-- A holder is in the answer to the request of another port. -/
theorem Holds.mem_lookupRequest {p : Nat} (hh : s.Holds port (cfg.line pkt)) (hp : p ≠ port)
    (h : s.lookupRequest pkt p = .ok (out, s')) : port ∈ out.1 := by
  obtain ⟨item, hlo, hite⟩ := hh
  rcases lookupRequest_eq_ok h with ⟨hn, -⟩ | ⟨rfl, -⟩
  · rw [hlo] at hn
    cases hn
  · rw [hlo, Option.getD_some]
    refine cfg.mem_maskToPortList.2 (cfg.has_and_not_portToMask_iff.2 ⟨?_, Ne.symm hp⟩)
    exact cfg.has_or_iff.2 (.inl hite)

/-- A request that is entered. -/
theorem requests_of_asks (hnn : NonNull s.cachedLocations) (h : s.exec t = .ok s')
    (hask : Asks cfg port line t) : s'.Requests port line := by
  rcases t with ⟨pkt, p, willRetry⟩ | _ | _ | _ | _
  case request =>
    obtain ⟨rfl, rfl, rfl, hallocates, hn, hre⟩ := hask
    rcases request_cases hnn h with ⟨hnot, -⟩ | ⟨-, item', hmark, hca⟩
    · rw [hallocates] at hnot
      cases hnot
    have hreq : cfg.Has item'.requested p := by
      rcases markRequest_eq_ok hmark with ⟨-, -, rfl⟩ | ⟨ha, -⟩ | ⟨hnot, -⟩
      · exact cfg.has_or_iff.2 (.inr (cfg.has_portToMask_iff.2 ⟨(Config.of_allocates hallocates).2, rfl⟩))
      · rw [ha hn] at hre
        cases hre
      · rw [hn] at hnot
        cases hnot
    rw [Requests, hca]
    exact at_store_self hreq (SnoopItem.not_isNull_of_requested hreq)
  all_goals exact hask.elim

/-- A port that gets a line is a holder. -/
theorem holds_of_completes (h : s.exec t = .ok s') (hco : s.Completes port line t) : s'.Holds port line := by
  have hwr : ∀ item : SnoopItem, cfg.Has item.holder port →
      s'.cachedLocations = store s.cachedLocations line item → s'.Holds port line := by
    intro item hite hca
    rw [Holds, hca]
    exact at_store_self hite (SnoopItem.not_isNull_of_holder hite)
  rcases t with _ | _ | ⟨pkt, rspPort, reqPort⟩ | _ | ⟨pkt, p⟩
  case snoopResponse =>
    obtain ⟨rfl, rfl, hcacheable, hsnooping⟩ := hco
    rcases snoopResponse_cases h with ⟨hsk, -⟩ | ⟨item, hup, hca⟩
    · simp [hcacheable, hsnooping] at hsk
    · generalize s.cachedLocations.lookup _ = old at hup
      rcases hup
      exact hwr _ (has_holder_filledItem.2 (.inr ⟨hsnooping, rfl⟩)) hca
  case response =>
    obtain ⟨rfl, rfl, hcacheable, hsnooping, hent⟩ := hco
    rcases response_cases h with ⟨hsk, -⟩ | ⟨item, hup, hca⟩
    · rcases hsk with hsk | hsk | hsk
      · simp [hcacheable] at hsk
      · simp [hsnooping] at hsk
      · simp [hsk] at hent
    · generalize s.cachedLocations.lookup _ = old at hup
      rcases hup
      exact hwr _ (has_holder_filledItem.2 (.inr ⟨hsnooping, rfl⟩)) hca
  all_goals exact hco.elim

/-! ## Runs -/

theorem nonNull_of_reaches (h : Reaches exec (fun _ _ => True) new s) : NonNull s.cachedLocations :=
  h.invariant (P := fun s => NonNull s.cachedLocations)
    (fun _ _ hlo => by cases hlo) fun _ hnn _ hs => nonNull_exec hnn hs

/-- A run of any transactions keeps what each of them keeps. -/
theorem keep_of_reaches {ok : Filter cfg → Transaction → Prop} {Q : Filter cfg → Prop}
    (hnn : NonNull s.cachedLocations) (hQ : Q s)
    (hke : ∀ {s s' t}, NonNull s.cachedLocations → s.exec t = .ok s' → ok s t → Q s → Q s')
    (h : Reaches exec ok s s') : Q s' :=
  (h.invariant (P := fun s => NonNull s.cachedLocations ∧ Q s) ⟨hnn, hQ⟩
    fun _ hs hok hex => ⟨nonNull_exec hs.1 hex, hke hs.1 hex hok hs.2⟩).2

/-- **Holders are snooped.**  Between transactions, a request that has to come again leaves the entries
as they were, and no entry is empty.  A port that has got a line is in the answer to every later snoop
of the line, and to every later request of it by another port, until the port evicts the line, a snoop
invalidates it, or it goes elsewhere without sharers.  A port that has asked for a line and is answered
does get it. -/
theorem holders_snooped (h : Reaches exec (fun _ _ => True) new s) :
    (∀ pkt port s', s.exec (.request pkt port true) = .ok s' → s'.cachedLocations = s.cachedLocations) ∧
    (∀ line item, s.cachedLocations.lookup line = some item → item.requested ||| item.holder ≠ 0) ∧
    (∀ port line t s₁ s₂, s.Completes port line t → s.exec t = .ok s₁ →
      Reaches exec (fun _ t => ¬ Ends cfg port line t) s₁ s₂ →
      (∀ pkt out s₃, cfg.line pkt = line → s₂.lookupSnoop pkt = .ok (out, s₃) → port ∈ out.1) ∧
      (∀ pkt p out s₃, cfg.line pkt = line → p ≠ port → s₂.lookupRequest pkt p = .ok (out, s₃) → port ∈ out.1)) ∧
    (∀ port line t s₁ s₂ pkt, Asks cfg port line t → s.exec t = .ok s₁ →
      Reaches exec (fun _ t => ¬ Responds cfg port line t) s₁ s₂ →
      cfg.line pkt = line → pkt.isUncacheable = false →
      s₂.Completes port line (.response pkt port)) := by
  have hnn := nonNull_of_reaches h
  refine ⟨fun pkt port s' => request_retry hnn, fun line item hlo => ?_, ?_, ?_⟩
  · exact of_decide_eq_false (hnn line item hlo)
  · intro port line t s₁ s₂ hco hex hrun
    have hh : s₂.Holds port line := keep_of_reaches (Q := fun s => s.Holds port line) (nonNull_exec hnn hex)
        (holds_of_completes hex hco)
        (fun hnn hex hend hh => hh.exec hnn hex hend) hrun
    constructor
    · rintro pkt out s₃ rfl hlo
      exact hh.mem_lookupSnoop hlo
    · rintro pkt p out s₃ rfl hp hlo
      exact hh.mem_lookupRequest hp hlo
  · intro port line t s₁ s₂ pkt ha hex hrun hli hcacheable
    obtain ⟨item, hlo, hite⟩ : s₂.Requests port line :=
      keep_of_reaches (Q := fun s => s.Requests port line) (nonNull_exec hnn hex)
        (requests_of_asks hnn hex ha)
        (fun hnn hex hre hreq => hreq.exec hnn hex hre) hrun
    exact ⟨hli, rfl, hcacheable, cfg.mem_slavePorts.1 (OneHot.mem_of_has hite), by rw [hlo]; rfl⟩

def twoCaches : Config where
  ports := [true, true, false]
  linesize := 64
  lookupLatency := 1
  maxCapacity := 8192

/-- A cache gets a line, and another asks for it and has to come again: the first one is snooped. -/
theorem holders_snooped_twoCaches : ∃ (s₂ s₃ : Filter twoCaches) (out : List Nat × Nat),
    s₂.lookupSnoop { cmd := .readReq, addr := 0x44 } = .ok (out, s₃) ∧ 0 ∈ out.1 := by
  obtain ⟨s, hs, hent, s₁, hs₁, s₂, hs₂, hout⟩ := exists_reaches exec (fun _ _ => True) new
    [.request { cmd := .readSharedReq, addr := 0x40 } 0 false]
    (fun s : Filter twoCaches => (s.cachedLocations.lookup 0x40).isSome ∧
      ∃ s₁ ∈ (s.exec (.response { cmd := .readResp, addr := 0x40 } 0)).toOption,
        ∃ s₂ ∈ runChecked exec (fun _ t => ¬ Ends twoCaches 0 0x40 t) s₁
            [.request { cmd := .readExReq, addr := 0x48 } 1 true],
          (s₂.lookupSnoop { cmd := .readReq, addr := 0x44 }).toOption.isSome) (by decide +kernel)
  obtain ⟨⟨out, s₃⟩, hout⟩ := Option.isSome_iff_exists.1 hout
  have hsn := eq_ok_of_toOption hout
  obtain ⟨-, -, hh, -⟩ := holders_snooped hs
  refine ⟨s₂, s₃, out, hsn, (hh 0 0x40 _ s₁ s₂ ?_ (eq_ok_of_toOption hs₁)
    (reaches_of_runChecked _ _ _ hs₂)).1 _ out s₃ rfl hsn⟩
  exact ⟨rfl, rfl, rfl, rfl, hent⟩

end Filter

end GuardianCouncil.SnoopFilter
