import Mathlib.Data.List.Nodup
import GuardianCouncil.Minor.StoreBuffer

/-!
# The packets of the store buffer

Stores are sent in order, so the packets in the memory system are in the order of the stores, and
nothing of a store is sent before everything of the older stores has been (`Sound.ordered`,
`Sound.inOrder`).  Together with the order of the answers — those of one cache line come in the order
the packets were sent — this says which stores can still be in the buffer when a packet has been
answered: none that is older, has a single packet, is not a barrier and writes the same line
(`Sound.answered`).

The lemmas are about the ways in which the entries of the buffer, the packets in flight and the stores
that have entered change; `GuardianCouncil.Minor.Overtake` puts them together along a run.
-/

namespace GuardianCouncil.Minor

open List

variable {cfg : Config}

/-- The cache line of an address. -/
def Config.line (cfg : Config) (a : Nat) : Nat := a / cfg.lineWidth

/-- Is this a packet of store `num`? -/
def Packet.isOf (num : Nat) (p : Packet) : Bool :=
  match p.sender with
  | .storeBuffer n _ => n = num
  | .transfers => false

open Packet

/-- Two packets of stores are in the order of the stores and of their fragments. -/
def Packet.Before (p q : Packet) : Prop :=
  ∀ m i n j, p.sender = .storeBuffer m i → q.sender = .storeBuffer n j → m < n ∨ m = n ∧ i < j

section

variable {request : Request cfg} {f : Fragment} {a : Nat}

/-- The bytes of a fragment are on one line. -/
theorem line_of_mem_addrs (hf : f ∈ request.fragments) (ha : a ∈ f.addrs) : cfg.line a = cfg.line f.paddr := by
  have hfit := request.inLine f hf
  obtain ⟨k, hk, rfl⟩ := mem_range'.1 ha
  have hmod := Nat.div_add_mod f.paddr cfg.lineWidth
  show (f.paddr + 1 * k) / cfg.lineWidth = f.paddr / cfg.lineWidth
  have hco := mul_comm (f.paddr / cfg.lineWidth) cfg.lineWidth
  refine Nat.div_eq_of_lt_le (by omega) ?_
  have hsu := Nat.add_one_mul (f.paddr / cfg.lineWidth) cfg.lineWidth
  omega

end

/-! ## Entries -/

/-- The entries with one of them written back. -/
def setSlot (slots : List (Slot cfg)) (slot : Slot cfg) : List (Slot cfg) :=
  slots.map fun x => if x.num = slot.num then slot else x

section

variable {slots : List (Slot cfg)} {slot x : Slot cfg}

theorem map_num_setSlot : (setSlot slots slot).map Slot.num = slots.map Slot.num := by
  rw [setSlot, map_map]
  refine map_congr_left fun y _ => ?_
  show (if y.num = slot.num then slot else y).num = y.num
  split_ifs with h
  · exact h.symm
  · rfl

theorem mem_setSlot (h : x ∈ setSlot slots slot) : x = slot ∨ x ∈ slots ∧ x.num ≠ slot.num := by
  obtain ⟨y, hy, rfl⟩ := mem_map.1 h
  by_cases hnum : y.num = slot.num
  · exact .inl (if_pos hnum)
  · rw [if_neg hnum]
    exact .inr ⟨hy, hnum⟩

theorem mem_setSlot_self (h : x ∈ slots) (hnum : x.num = slot.num) : slot ∈ setSlot slots slot :=
  mem_map.2 ⟨x, h, if_pos hnum⟩

theorem mem_setSlot_of_ne (h : x ∈ slots) (hnum : x.num ≠ slot.num) : x ∈ setSlot slots slot :=
  mem_map.2 ⟨x, h, if_neg hnum⟩

theorem filter_setSlot : (setSlot slots slot).filter (fun x => x.num ≠ slot.num) =
    slots.filter fun x => x.num ≠ slot.num := by
  induction slots with
  | nil => rfl
  | cons y slots ih =>
    rw [setSlot, map_cons]
    by_cases hnum : y.num = slot.num
    · rw [if_pos hnum, filter_cons_of_neg (by simp), filter_cons_of_neg (by simpa using hnum)]
      exact ih
    · rw [if_neg hnum, filter_cons_of_pos (by simpa using hnum), filter_cons_of_pos (by simpa using hnum)]
      exact congrArg (y :: ·) ih

end

/-! ## What holds of the entries and the packets -/

/-- The entries of the store buffer, the packets in flight and the stores that have entered fit
together. -/
structure Sound (slots : List (Slot cfg)) (inFlight : List Packet) (entered : List (Store cfg)) : Prop where
  sorted : (slots.map Slot.num).Pairwise (· < ·)
  recorded : ∀ x ∈ slots, entered[x.num]? = some x.store
  issued_le : ∀ x ∈ slots, x.numIssuedFragments ≤ x.store.fragments.length
  /-- A complete request has nothing in flight. -/
  complete : ∀ x ∈ slots, x.state = .complete → x.numIssuedFragments = x.numRetiredFragments
  /-- Nothing is sent before everything older has been. -/
  ordered : ∀ x ∈ slots, ∀ y ∈ slots, x.num < y.num → 0 < y.numIssuedFragments →
    x.numIssuedFragments = x.store.fragments.length
  /-- The packets of stores belong to entries. -/
  owned : ∀ p ∈ inFlight, ∀ n i, p.sender = .storeBuffer n i → ∃ x ∈ slots, x.num = n ∧
    i < x.numIssuedFragments ∧ ∃ f, x.store.fragments[i]? = some f ∧ f.paddr = p.paddr
  counted : ∀ x ∈ slots, inFlight.countP (isOf x.num) + x.numRetiredFragments = x.numIssuedFragments
  inOrder : inFlight.Pairwise Packet.Before
  /-- When a packet has been answered, no older store with a single packet on its line is left. -/
  answered : ∀ y ∈ slots, ∀ k f, k < y.numIssuedFragments → y.store.fragments[k]? = some f →
    (∀ p ∈ inFlight, p.sender ≠ .storeBuffer y.num k) →
    ∀ x ∈ slots, x.num < y.num → x.store.isSplit = false → x.store.isBarrier = false →
    ∀ g ∈ x.store.fragments, cfg.line g.paddr ≠ cfg.line f.paddr
  /-- A store that has left wrote nothing that an older one of its thread in the buffer writes. -/
  left : ∀ m store, entered[m]? = some store → m ∉ slots.map Slot.num →
    ∀ x ∈ slots, x.num < m → x.store.threadId = store.threadId →
    List.Disjoint x.store.addrs store.addrs

/-- A store that is no barrier leaves with its last answer. -/
def Pending (slots : List (Slot cfg)) : Prop :=
  ∀ x ∈ slots, x.store.isBarrier = false → x.numRetiredFragments < x.store.fragments.length

namespace Sound

variable {slots : List (Slot cfg)} {inFlight : List Packet} {entered : List (Store cfg)}
  {slot slot' x y : Slot cfg}

theorem nil : Sound ([] : List (Slot cfg)) [] [] where
  sorted := .nil
  recorded := by simp
  issued_le := by simp
  complete := by simp
  ordered := by simp
  owned := by simp
  counted := by simp
  inOrder := .nil
  answered := by simp
  left := by simp

section

variable (h : Sound slots inFlight entered)
include h

/-- The number of an entry identifies it. -/
theorem eq_of_num (hx : x ∈ slots) (hy : y ∈ slots) (hnum : x.num = y.num) : x = y := by
  have hn : (slots.map Slot.num).Nodup := h.sorted.imp fun hlt => Nat.ne_of_lt hlt
  exact inj_on_of_nodup_map hn hx hy hnum

theorem num_lt (hx : x ∈ slots) : x.num < entered.length := by
  obtain ⟨hlt, -⟩ := List.getElem?_eq_some_iff.1 (h.recorded x hx)
  exact hlt

/-- A store enters. -/
theorem insert (hnum : slot.num = entered.length)
    (his : slot.numIssuedFragments = 0) (hre : slot.numRetiredFragments = 0) :
    Sound (slots ++ [slot]) inFlight (entered ++ [slot.store]) := by
  have hmem : ∀ {x}, x ∈ slots ++ [slot] → x ∈ slots ∨ x = slot := by simp
  -- none of the packets in flight is of the new store
  have hno : inFlight.countP (isOf slot.num) = 0 := by
    rw [countP_eq_zero]
    rintro ⟨sender, paddr⟩ hp
    rcases sender with ⟨n, i⟩ | -
    · obtain ⟨x, hx, rfl, -⟩ := h.owned _ hp n i rfl
      have hlt := h.num_lt hx
      simp only [isOf, decide_eq_true_eq]
      omega
    · simp [isOf]
  refine ⟨?_, ?_, ?_, ?_, ?_, ?_, ?_, h.inOrder, ?_, ?_⟩
  · rw [map_append, pairwise_append]
    refine ⟨h.sorted, pairwise_singleton _ _, fun n hn m hm => ?_⟩
    obtain ⟨x, hx, rfl⟩ := mem_map.1 hn
    cases mem_singleton.1 hm
    exact hnum ▸ h.num_lt hx
  · intro x hx
    rcases hmem hx with hx | rfl
    · rw [getElem?_append_left (h.num_lt hx), h.recorded x hx]
    · rw [hnum, getElem?_concat_length]
  · intro x hx
    rcases hmem hx with hx | rfl
    · exact h.issued_le x hx
    · omega
  · intro x hx hco
    rcases hmem hx with hx | rfl
    · exact h.complete x hx hco
    · omega
  · intro x hx y hy hlt hpos
    rcases hmem hy with hy | rfl
    · have hylt := h.num_lt hy
      rcases hmem hx with hx | rfl
      · exact h.ordered x hx y hy hlt hpos
      · omega
    · omega
  · intro p hp n i hse
    obtain ⟨x, hx, hres⟩ := h.owned p hp n i hse
    exact ⟨x, mem_append_left _ hx, hres⟩
  · intro x hx
    rcases hmem hx with hx | rfl
    · exact h.counted x hx
    · omega
  · intro y hy k f hk hf hp x hx hlt
    rcases hmem hy with hy | rfl
    · have hylt := h.num_lt hy
      rcases hmem hx with hx | rfl
      · exact h.answered y hy k f hk hf hp x hx hlt
      · omega
    · omega
  · intro m store hm hnot x hx hlt
    have hm' : m < entered.length := by
      obtain ⟨hlen, -⟩ := List.getElem?_eq_some_iff.1 hm
      have hne : m ≠ slot.num := fun hmn => hnot (by simp [hmn])
      rw [length_append, length_singleton] at hlen
      omega
    rw [getElem?_append_left hm'] at hm
    rcases hmem hx with hx | rfl
    · refine h.left m store hm (fun hmem => hnot ?_) x hx hlt
      rw [map_append]
      exact mem_append_left _ hmem
    · omega

/-- An entry is written back for the same store, with no fewer packets sent.  The packets in flight are old ones or packets of
this store, and a packet that is not in flight any more was not before, or is answered in its turn. -/
theorem set (hsl : slot ∈ slots) (slot' : Slot cfg) (hnum : slot'.num = slot.num)
    (hst : slot'.store = slot.store) (his : slot.numIssuedFragments ≤ slot'.numIssuedFragments)
    (hle : slot'.numIssuedFragments ≤ slot.store.fragments.length)
    (hcom : slot'.state = .complete → slot'.numIssuedFragments = slot'.numRetiredFragments)
    (holder : 0 < slot'.numIssuedFragments →
      ∀ x ∈ slots, x.num < slot.num → x.numIssuedFragments = x.store.fragments.length)
    {inFlight' : List Packet} (hown : ∀ p ∈ inFlight', p ∈ inFlight ∨ ∃ i f,
      p = ⟨.storeBuffer slot.num i, f.paddr⟩ ∧ i < slot'.numIssuedFragments ∧ slot.store.fragments[i]? = some f)
    (hcou : inFlight'.countP (isOf slot.num) + slot'.numRetiredFragments = slot'.numIssuedFragments)
    (hoth : ∀ n, n ≠ slot.num → inFlight'.countP (isOf n) = inFlight.countP (isOf n))
    (hin : inFlight'.Pairwise Packet.Before) (hans : ∀ y ∈ slots, ∀ k f, y.store.fragments[k]? = some f →
      k < y.numIssuedFragments ∨ y = slot ∧ k < slot'.numIssuedFragments →
      (∀ p ∈ inFlight', p.sender ≠ .storeBuffer y.num k) →
      (k < y.numIssuedFragments ∧ ∀ p ∈ inFlight, p.sender ≠ .storeBuffer y.num k) ∨
        ∀ x ∈ slots, x.num < y.num → x.store.isSplit = false → x.store.isBarrier = false →
        ∀ g ∈ x.store.fragments, cfg.line g.paddr ≠ cfg.line f.paddr) :
    Sound (setSlot slots slot') inFlight' entered := by
  have hmem : ∀ {x}, x ∈ setSlot slots slot' → ∃ y ∈ slots, y.num = x.num ∧ y.store = x.store ∧
      (x = y ∨ y = slot ∧ x = slot') := by
    intro x hx
    rcases mem_setSlot hx with rfl | ⟨hx, -⟩
    · exact ⟨slot, hsl, hnum.symm, hst.symm, .inr ⟨rfl, rfl⟩⟩
    · exact ⟨x, hx, rfl, rfl, .inl rfl⟩
  refine ⟨map_num_setSlot.symm ▸ h.sorted, ?_, ?_, ?_, ?_, ?_, ?_, hin, ?_, ?_⟩
  · intro x hx
    obtain ⟨y, hy, hxn, hxs, -⟩ := hmem hx
    rw [← hxn, ← hxs, h.recorded y hy]
  · intro x hx
    rcases mem_setSlot hx with rfl | ⟨hx, -⟩
    · exact hst ▸ hle
    · exact h.issued_le x hx
  · intro x hx hxc
    rcases mem_setSlot hx with rfl | ⟨hx, -⟩
    · exact hcom hxc
    · exact h.complete x hx hxc
  · intro x hx y hy hlt hpos
    rcases mem_setSlot hx with hx | ⟨hx, -⟩ <;> rcases mem_setSlot hy with hy | ⟨hy, -⟩
    · exact absurd hlt (hx ▸ hy ▸ Nat.lt_irrefl _)
    · have := h.ordered slot hsl y hy (hnum ▸ hx ▸ hlt) hpos
      rw [hx, hst]
      omega
    · exact holder (hy ▸ hpos) x hx (hnum ▸ hy ▸ hlt)
    · exact h.ordered x hx y hy hlt hpos
  · intro p hp n i hse
    rcases hown p hp with hp | ⟨i', f, rfl, hi, hf⟩
    · obtain ⟨x, hx, hxn, hi, f, hf, hpa⟩ := h.owned p hp n i hse
      by_cases hx' : x.num = slot'.num
      · cases h.eq_of_num hx hsl (hx'.trans hnum)
        exact ⟨slot', mem_setSlot_self hx hx', hnum.trans hxn, Nat.lt_of_lt_of_le hi his, f, hst ▸ hf, hpa⟩
      · exact ⟨x, mem_setSlot_of_ne hx hx', hxn, hi, f, hf, hpa⟩
    · obtain ⟨rfl, rfl⟩ := Sender.storeBuffer.inj hse
      exact ⟨slot', mem_setSlot_self hsl hnum.symm, hnum, hi, f, hst ▸ hf, rfl⟩
  · intro x hx
    rcases mem_setSlot hx with rfl | ⟨hx, hxn⟩
    · exact hnum ▸ hcou
    · rw [hoth x.num (hnum ▸ hxn)]
      exact h.counted x hx
  · intro y hy k f hk hf hp x hx hlt hsp hba
    obtain ⟨x', hx', hxn, hxs, -⟩ := hmem hx
    obtain ⟨y', hy', hyn, hys, heq⟩ := hmem hy
    rw [← hxs] at hsp hba ⊢
    rw [← hys] at hf
    rw [← hyn] at hp hlt
    rw [← hxn] at hlt
    have hk : k < y'.numIssuedFragments ∨ y' = slot ∧ k < slot'.numIssuedFragments := by
      obtain rfl | ⟨hsel, rfl⟩ := heq
      · exact .inl hk
      · exact .inr ⟨hsel, hk⟩
    rcases hans y' hy' k f hf hk hp with ⟨hk', hp'⟩ | hnone
    · exact h.answered y' hy' k f hk' hf hp' x' hx' hlt hsp hba
    · exact hnone x' hx' hlt hsp hba
  · intro m store hm hnot x hx hlt hth
    obtain ⟨x', hx', hxn, hxs, -⟩ := hmem hx
    rw [← hxs] at hth ⊢
    exact h.left m store hm (map_num_setSlot ▸ hnot) x' hx' (hxn ▸ hlt) hth

/-- The state of a request changes, to one that is not complete. -/
theorem setState (hsl : slot ∈ slots) {state : RequestState}
    (hsta : state ≠ .complete) : Sound (setSlot slots { slot with state := state }) inFlight entered :=
  h.set hsl { slot with state := state } rfl rfl (Nat.le_refl _) (h.issued_le slot hsl) (fun hco => absurd hco hsta)
    (fun hpos x hx hlt => h.ordered x hx slot hsl hlt hpos) (fun _ => .inl) (h.counted slot hsl) (fun _ _ => rfl) h.inOrder
    fun _ _ _ _ _ hk hp => .inl ⟨hk.elim id fun ⟨hy, hk⟩ => hy ▸ hk, hp⟩

end

variable {f : Fragment} {k : Nat} {l₁ l₂ : List Packet} {p : Packet}

section

variable (h : Sound slots inFlight entered)
include h

/-- A packet of a store is sent, after everything of the older ones. -/
theorem send (hsl : slot ∈ slots) (hf : slot.store.fragments[slot.numIssuedFragments]? = some f)
    (holder : ∀ x ∈ slots, x.num < slot.num → x.numIssuedFragments = x.store.fragments.length) :
    Sound (setSlot slots { slot with
        numIssuedFragments := slot.numIssuedFragments + 1, state := .storeBufferIssuing })
      (inFlight ++ [⟨.storeBuffer slot.num slot.numIssuedFragments, f.paddr⟩]) entered := by
  obtain ⟨hlt, -⟩ := List.getElem?_eq_some_iff.1 hf
  refine h.set hsl { slot with numIssuedFragments := slot.numIssuedFragments + 1, state := .storeBufferIssuing }
    rfl rfl (Nat.le_succ _) hlt nofun (fun _ => holder) (fun p hp => ?_) ?_ (fun n hn => ?_) ?_ ?_
  · exact (mem_append.1 hp).imp_right fun hp => ⟨_, f, mem_singleton.1 hp, Nat.lt_succ_self _, hf⟩
  · have hcou := h.counted slot hsl
    rw [countP_append, countP_singleton, if_pos (by simp [isOf])]
    dsimp only
    omega
  · rw [countP_append, countP_singleton, if_neg (by simpa [isOf] using hn.symm), add_zero]
  · rw [pairwise_append]
    refine ⟨h.inOrder, pairwise_singleton _ _, fun p hp q hq m i n j hm hn => ?_⟩
    cases mem_singleton.1 hq
    obtain ⟨rfl, rfl⟩ := Sender.storeBuffer.inj hn
    obtain ⟨x, hx, rfl, hi, -⟩ := h.owned p hp m i hm
    rcases Nat.lt_trichotomy x.num slot.num with hnum | hnum | hnum
    · exact .inl hnum
    · cases h.eq_of_num hx hsl hnum
      exact .inr ⟨rfl, hi⟩
    · -- the younger stores have sent nothing yet
      have := h.ordered slot hsl x hx hnum (by omega)
      omega
  · intro y _ k g _ hk hp
    refine .inl ⟨?_, fun p hmem => hp p (mem_append_left _ hmem)⟩
    rcases hk with hk | ⟨rfl, hk⟩
    · exact hk
    · refine Nat.lt_of_le_of_ne (Nat.le_of_lt_succ hk) ?_
      rintro rfl
      exact hp _ (mem_append_right _ (mem_singleton_self _)) rfl

/-- A packet of the transfers queue is sent. -/
theorem send_transfer (paddr : Nat) : Sound slots (inFlight ++ [⟨.transfers, paddr⟩]) entered where
  sorted := h.sorted
  recorded := h.recorded
  issued_le := h.issued_le
  complete := h.complete
  ordered := h.ordered
  owned p hp n i hse := by
    rcases mem_append.1 hp with hp | hp
    · exact h.owned p hp n i hse
    · cases mem_singleton.1 hp
      cases hse
  counted x hx := by
    rw [countP_append]
    exact h.counted x hx
  inOrder := by
    refine pairwise_append.2 ⟨h.inOrder, pairwise_singleton _ _, ?_⟩
    intro p _ q hq m i n j _ hn
    cases mem_singleton.1 hq
    cases hn
  answered y hy k f hk hf hp := h.answered y hy k f hk hf fun p hmem =>
    hp p (mem_append_left _ hmem)
  left := h.left

section

variable (hpe : Pending slots) (hfl : inFlight = l₁ ++ p :: l₂) (htu : ∀ q ∈ l₁, cfg.line q.paddr ≠ cfg.line p.paddr)
include hpe hfl htu

/-- When a packet is answered in its turn, no older store with a single packet on its line is
left. -/
theorem no_older (hy : y ∈ slots)
    (hse : p.sender = .storeBuffer y.num k) (hf : y.store.fragments[k]? = some f) (hx : x ∈ slots)
    (hnum : x.num < y.num) (hsp : x.store.isSplit = false) (hba : x.store.isBarrier = false)
    {g : Fragment} (hg : g ∈ x.store.fragments) : cfg.line g.paddr ≠ cfg.line f.paddr := by
  intro hli
  have hpm : p ∈ inFlight := by simp [hfl]
  -- the packet is the fragment's
  obtain ⟨y', hy', hnum', hk, f', hf', hpa⟩ := h.owned p hpm y.num k hse
  obtain rfl := h.eq_of_num hy' hy hnum'
  cases hf'.symm.trans hf
  -- the older store has one packet, which was sent and is still in flight
  have hone : x.store.fragments = [g] := by
    have hlen : ¬ 1 < x.store.fragments.length := by simpa [Request.isSplit] using hsp
    obtain ⟨g', hg'⟩ := length_eq_one_iff.1 (Nat.le_antisymm (Nat.le_of_not_lt hlen) (length_pos_of_mem hg))
    rw [hg', mem_singleton] at hg
    rw [hg', hg]
  have his := h.ordered x hx y' hy' hnum (by omega)
  have hco := h.counted x hx
  have hre := hpe x hx hba
  rw [hone, length_singleton] at his hre
  obtain ⟨q, hq, hqof⟩ := countP_pos_iff.1 (show 0 < inFlight.countP (isOf x.num) by omega)
  obtain ⟨i, hqs⟩ : ∃ i, q.sender = .storeBuffer x.num i := by
    obtain ⟨sender, paddr⟩ := q
    rcases sender with ⟨n, i⟩ | -
    · exact ⟨i, by simpa [isOf] using hqof⟩
    · cases hqof
  obtain ⟨x', hx', hxn, hi, g', hg', hqp⟩ := h.owned q hq x.num i hqs
  cases h.eq_of_num hx' hx hxn
  have hi0 : i = 0 := by omega
  rw [hi0, hone, getElem?_cons_zero] at hg'
  cases hg'
  -- so it was sent first and has to be answered first
  rw [hfl] at hq
  rcases mem_append.1 hq with hq | hq
  · exact htu q hq (by rw [← hqp, ← hpa, hli])
  rcases mem_cons.1 hq with rfl | hq
  · obtain ⟨hn, -⟩ := Sender.storeBuffer.inj (hqs.symm.trans hse)
    omega
  · have hso := h.inOrder
    rw [hfl, pairwise_append] at hso
    have hbe := (pairwise_cons.1 hso.2.1).1 q hq _ _ _ _ hse hqs
    omega

/-- A packet of a store is answered. -/
theorem answer (hsl : slot ∈ slots)
    (hse : p.sender = .storeBuffer slot.num k) (hnum : slot'.num = slot.num) (hst : slot'.store = slot.store)
    (his : slot'.numIssuedFragments = slot.numIssuedFragments)
    (hre : slot'.numRetiredFragments = slot.numRetiredFragments + 1)
    (hcom : slot'.state = .complete → slot'.numIssuedFragments = slot'.numRetiredFragments) :
    Sound (setSlot slots slot') (l₁ ++ l₂) entered := by
  have hcou := h.counted slot hsl
  rw [hfl, countP_append, countP_cons_of_pos (by simp [isOf, hse])] at hcou
  have hsub : (l₁ ++ l₂).Sublist inFlight := hfl ▸ (sublist_cons_self p l₂).append_left l₁
  refine h.set hsl slot' hnum hst (Nat.le_of_eq his.symm) (his ▸ h.issued_le slot hsl) hcom (fun hpos x hx hlt => ?_)
    (fun q hq => .inl (hsub.mem hq)) ?_ (fun n hn => ?_) (h.inOrder.sublist hsub) fun y hy j f hf hj hq => ?_
  · exact h.ordered x hx slot hsl hlt (his ▸ hpos)
  · rw [countP_append, his, hre]
    omega
  · rw [hfl, countP_append, countP_append, countP_cons_of_neg (by simpa [isOf, hse] using hn.symm)]
  · by_cases hthi : p.sender = .storeBuffer y.num j
    · exact .inr fun x hx hlt hsp hba g => h.no_older hpe hfl htu hy hthi hf hx hlt hsp hba
    refine .inl ⟨hj.elim id fun ⟨hy, hj⟩ => hy ▸ his ▸ hj, fun q hqm => ?_⟩
    rw [hfl, mem_append, mem_cons] at hqm
    rcases hqm with hqm | rfl | hqm
    · exact hq q (mem_append_left _ hqm)
    · exact hthi
    · exact hq q (mem_append_right _ hqm)

end

/-- A packet of the transfers queue is answered. -/
theorem answer_transfer
    (hfl : inFlight = l₁ ++ p :: l₂) (hse : p.sender = .transfers) : Sound slots (l₁ ++ l₂) entered where
  sorted := h.sorted
  recorded := h.recorded
  issued_le := h.issued_le
  complete := h.complete
  ordered := h.ordered
  owned q hq := h.owned q (by
    rw [hfl]
    exact ((sublist_cons_self p l₂).append_left l₁).mem hq)
  counted x hx := by
    have hco := h.counted x hx
    rw [hfl, countP_append, countP_cons_of_neg (by simp [isOf, hse])] at hco
    rw [countP_append]
    exact hco
  inOrder := by
    have hso := h.inOrder
    rw [hfl] at hso
    exact hso.sublist ((sublist_cons_self p l₂).append_left l₁)
  answered y hy k f hk hf hq := h.answered y hy k f hk hf fun q hmem => by
    rw [hfl, mem_append, mem_cons] at hmem
    rcases hmem with hmem | rfl | hmem
    · exact hq q (mem_append_left _ hmem)
    · simp [hse]
    · exact hq q (mem_append_right _ hmem)
  left := h.left

/-- Entries leave that have nothing in flight and write nothing that an older one of their thread
in the buffer writes. -/
theorem leave {slots' : List (Slot cfg)} (hsub : slots'.Sublist slots)
    (hd : ∀ y ∈ slots, y ∉ slots' → y.numIssuedFragments = y.numRetiredFragments)
    (hlef : ∀ y ∈ slots, y ∉ slots' → ∀ x ∈ slots', x.num < y.num →
      x.store.threadId = y.store.threadId → List.Disjoint x.store.addrs y.store.addrs) :
    Sound slots' inFlight entered where
  sorted := h.sorted.sublist (hsub.map _)
  recorded x hx := h.recorded x (hsub.mem hx)
  issued_le x hx := h.issued_le x (hsub.mem hx)
  complete x hx := h.complete x (hsub.mem hx)
  ordered x hx y hy := h.ordered x (hsub.mem hx) y (hsub.mem hy)
  owned p hp n i hse := by
    obtain ⟨x, hx, hnum, hi, hf⟩ := h.owned p hp n i hse
    refine ⟨x, ?_, hnum, hi, hf⟩
    by_contra hnot
    have hco := h.counted x hx
    rw [hd x hx hnot, Nat.add_eq_right, countP_eq_zero] at hco
    exact hco p hp (by simp [isOf, hse, hnum])
  counted x hx := h.counted x (hsub.mem hx)
  inOrder := h.inOrder
  answered y hy k f hk hf hp x hx := h.answered y (hsub.mem hy) k f hk hf hp x (hsub.mem hx)
  left m store hm hnot x hx hlt hth := by
    by_cases hthe : m ∈ slots.map Slot.num
    · obtain ⟨y, hy, rfl⟩ := mem_map.1 hthe
      cases Option.some.inj ((h.recorded y hy).symm.trans hm)
      exact hlef y hy (fun hy' => hnot (mem_map_of_mem hy')) x hx hlt hth
    · exact h.left m store hm hthe x (hsub.mem hx) hlt hth

end

end Sound

end GuardianCouncil.Minor
