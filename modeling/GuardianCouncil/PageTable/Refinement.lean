import GuardianCouncil.PageTable.FuncPageTable
import Mathlib.Algebra.Order.Floor.Div

/-!
# The page table is a map

What should a lookup find?  `Op.apply` says it on a partial map from page addresses to physical
addresses, for a whole region at once: no loop and no cache.

The page table does find this as long as its cache is coherent, and one call can spoil the cache: `remap`
pushes the moved entry in without erasing the entry that the destination may have there already, so
that a page has two slots.  The second one shows when the first is erased (`stale_after_unmap`).  In a
run in which every `remap` finds its destination out of the slots that stay (`Uncached`), every lookup
finds what the map has (`lookup_refines`).
-/

namespace GuardianCouncil.PageTable

open Fallible List Function FrontCache Config State

/-! ## The map -/

/-- The page at `v` is in the region of `size` bytes from `vaddr` on. -/
def InRegion (vaddr : Addr) (size : Int64) (v : Addr) : Prop := (v - vaddr).toNat < size.toInt.toNat
deriving Decidable

/-- What a call does to the map from page addresses to physical addresses. -/
def Op.apply (mapped : Addr → Option Addr) : Op → Addr → Option Addr
  | .map vaddr paddr size _, v =>
    if InRegion vaddr size v then some (paddr + (v - vaddr)) else mapped v
  | .remap vaddr size newVaddr, v =>
    if InRegion newVaddr size v then mapped (vaddr + (v - newVaddr))
    else if InRegion vaddr size v then none
    else mapped v
  | .unmap vaddr size, v => if InRegion vaddr size v then none else mapped v
  | .lookup _, v => mapped v
  | .translate _, v => mapped v

/-- What is mapped according to a sequence of calls. -/
def mappedBy (ops : List Op) : Addr → Option Addr := ops.foldl Op.apply fun _ => none

theorem mappedBy_concat (ops : List Op) (op : Op) : mappedBy (ops ++ [op]) = op.apply (mappedBy ops) := by
  rw [mappedBy, foldl_append]
  rfl

/-! ## Pages -/

namespace Config

variable {Entry : Type} (cfg : Config Entry)

/-- The address of a page. -/
def Aligned (a : Addr) : Prop := cfg.pageOffset a = 0

variable {cfg}

variable (cfg) in
theorem pageSize_le : 2 ^ cfg.pageShift ≤ 2 ^ 63 :=
  Nat.pow_le_pow_right (by decide) (Nat.le_of_lt_succ cfg.pageShift_lt)

theorem toNat_offsetMask : cfg.offsetMask.toNat = 2 ^ cfg.pageShift - 1 := by
  have hpos := Nat.two_pow_pos cfg.pageShift
  have hle := pageSize_le cfg
  have hone : (1 : Addr).toNat = 1 := rfl
  rw [offsetMask, pageSize, BitVec.toNat_sub, BitVec.toNat_twoPow, hone]
  omega

theorem toNat_pageOffset (a : Addr) : (cfg.pageOffset a).toNat = a.toNat % 2 ^ cfg.pageShift := by
  rw [pageOffset, BitVec.toNat_and, toNat_offsetMask, Nat.and_two_pow_sub_one_eq_mod]

variable {a v : Addr} {i n : Nat} {size : Int64}

theorem aligned_iff : cfg.Aligned a ↔ 2 ^ cfg.pageShift ∣ a.toNat := by
  rw [Aligned, ← BitVec.toNat_inj, toNat_pageOffset, Nat.dvd_iff_mod_eq_zero]
  rfl

theorem aligned_pageAlign (a : Addr) : cfg.Aligned (cfg.pageAlign a) := by
  rw [Aligned, pageOffset, pageAlign, BitVec.and_assoc, BitVec.not_and_self]
  simp

/-- Pages are a whole number of pages apart. -/
theorem dvd_sub (ha : cfg.Aligned a) (hv : cfg.Aligned v) : 2 ^ cfg.pageShift ∣ (v - a).toNat := by
  have h64 : 2 ^ cfg.pageShift ∣ 2 ^ 64 := pow_dvd_pow 2 (le_of_lt cfg.pageShift_lt)
  rw [aligned_iff] at ha hv
  rw [BitVec.toNat_sub, Nat.dvd_mod_iff h64]
  exact Nat.dvd_add (Nat.dvd_sub h64 ha) hv

/-- The page `v` is the `i`-th from `a` on. -/
theorem eq_page_iff (hi : i * 2 ^ cfg.pageShift < 2 ^ 64) :
    v = cfg.page a i ↔ (v - a).toNat = i * 2 ^ cfg.pageShift := by
  constructor
  · rintro rfl
    rw [page, BitVec.add_comm, BitVec.add_sub_cancel, BitVec.toNat_ofNat, Nat.mod_eq_of_lt hi]
  · intro h
    rw [page, ← h, BitVec.ofNat_toNat, BitVec.setWidth_eq, BitVec.add_comm, BitVec.sub_add_cancel]

theorem aligned_page (ha : cfg.Aligned a) (i : Nat) : cfg.Aligned (cfg.page a i) := by
  have h64 : 2 ^ cfg.pageShift ∣ 2 ^ 64 := pow_dvd_pow 2 (le_of_lt cfg.pageShift_lt)
  rw [aligned_iff] at ha ⊢
  rw [page, BitVec.toNat_add, BitVec.toNat_ofNat, Nat.add_mod_mod, Nat.dvd_mod_iff h64]
  exact Nat.dvd_add ha (Nat.dvd_mul_left ..)

/-- One page more. -/
theorem lt_succ_iff (ha : cfg.Aligned a) (hv : cfg.Aligned v) (hn : n * 2 ^ cfg.pageShift < 2 ^ 64) :
    (v - a).toNat < (n + 1) * 2 ^ cfg.pageShift ↔ (v - a).toNat < n * 2 ^ cfg.pageShift ∨ v = cfg.page a n := by
  obtain ⟨k, hk⟩ := dvd_sub ha hv
  have hpos := Nat.two_pow_pos cfg.pageShift
  rw [eq_page_iff hn, hk, Nat.mul_comm, Nat.mul_lt_mul_right hpos, Nat.mul_lt_mul_right hpos,
    Nat.mul_left_inj (Nat.ne_of_gt hpos)]
  omega

theorem lt_numPages_iff : i < cfg.numPages size ↔ i * 2 ^ cfg.pageShift < size.toInt.toNat := by
  have hpos := Nat.two_pow_pos cfg.pageShift
  rw [numPages, ← Nat.succ_le_iff, Nat.le_div_iff_mul_le hpos, Nat.succ_mul]
  omega

/-- The loop goes over the pages of the region. -/
theorem inRegion_iff (ha : cfg.Aligned a) (hv : cfg.Aligned v) :
    InRegion a size v ↔ (v - a).toNat < cfg.numPages size * 2 ^ cfg.pageShift := by
  obtain ⟨k, hk⟩ := dvd_sub ha hv
  rw [InRegion, hk, Nat.mul_comm, ← lt_numPages_iff, Nat.mul_lt_mul_right (Nat.two_pow_pos _)]

theorem mul_lt_of_lt_numPages (hi : i < cfg.numPages size) : i * 2 ^ cfg.pageShift < 2 ^ 63 := by
  have hlt := size.toInt_lt
  have := lt_numPages_iff.1 hi
  omega

theorem sub_page (a : Addr) (i : Nat) : cfg.page a i - a = BitVec.ofNat 64 (i * 2 ^ cfg.pageShift) := by
  rw [page, BitVec.add_comm, BitVec.add_sub_cancel]

/-- A map on the first pages of a region gets one page more. -/
theorem update_first {α : Type} (ha : cfg.Aligned a) (hv : cfg.Aligned v)
    (hn : n * 2 ^ cfg.pageShift < 2 ^ 64) (f g : Addr → α) :
    update (fun v => if (v - a).toNat < n * 2 ^ cfg.pageShift then f v else g v) (cfg.page a n) (f (cfg.page a n)) v =
      if (v - a).toNat < (n + 1) * 2 ^ cfg.pageShift then f v else g v := by
  by_cases hla : v = cfg.page a n
  · rw [if_pos ((lt_succ_iff ha hv hn).2 (.inr hla)), hla, update_self]
  · rw [update_of_ne hla]
    refine if_congr ?_ rfl rfl
    rw [lt_succ_iff ha hv hn, or_iff_left hla]

/-- The pages of two disjoint regions. -/
theorem le_sub_page {b : Addr} (ha : cfg.Aligned a) (hb : cfg.Aligned b)
    (hab : ¬ InRegion a size b) (hba : ¬ InRegion b size a) (hi : i < cfg.numPages size) :
    cfg.numPages size * 2 ^ cfg.pageShift ≤ (cfg.page a i - b).toNat := by
  rw [inRegion_iff ha hb, BitVec.toNat_sub] at hab
  rw [inRegion_iff hb ha, BitVec.toNat_sub] at hba
  have hlt : i * 2 ^ cfg.pageShift < cfg.numPages size * 2 ^ cfg.pageShift :=
    (Nat.mul_lt_mul_right (Nat.two_pow_pos _)).2 hi
  have := a.isLt
  have := b.isLt
  rw [page, BitVec.toNat_sub, BitVec.toNat_add, BitVec.toNat_ofNat]
  omega

end Config

/-! ## The table and the map -/

section

variable {Entry : Type} {cfg : Config Entry}

/-- The page table holds the map, and its cache does not show. -/
structure Refines (cfg : Config Entry) (s : State Entry) (mapped : Addr → Option Addr) : Prop where
  coherent : FrontCache.Coherent s.pTable s.pTableCache
  threeSlots : s.pTableCache.length = 3
  table : ∀ v, cfg.Aligned v → (s.pTable v).map cfg.pageStart = (mapped v).map cfg.frame

variable {s s' : State Entry} {mapped mapped' : Addr → Option Addr} {v vaddr paddr newVaddr : Addr}
  {flags : BitVec 64}

theorem Refines.congr (h : Refines cfg s mapped) (heq : ∀ v, cfg.Aligned v → mapped v = mapped' v) :
    Refines cfg s mapped' :=
  { h with table := fun v hv => heq v hv ▸ h.table v hv }

theorem refines_init : Refines cfg (.init Entry) fun _ => none where
  coherent := ⟨by simp [init], by simp [init, FrontCache.keys]⟩
  threeSlots := rfl
  table _ _ := rfl

section

variable (h : Refines cfg s mapped)
include h

/-- The table and the map change at one page alike. -/
theorem Refines.table_update {entry : Option Entry} {p : Option Addr}
    (hp : entry.map cfg.pageStart = p.map cfg.frame) (hv : cfg.Aligned v) :
    (update s.pTable vaddr entry v).map cfg.pageStart = (update mapped vaddr p v).map cfg.frame := by
  by_cases heq : v = vaddr
  · rw [heq, update_self, update_self, hp]
  · rw [update_of_ne heq, update_of_ne heq, h.table v hv]

theorem Refines.mapPage (hmap : s.mapPage cfg flags vaddr paddr = .ok s') :
    Refines cfg s' (update mapped vaddr (some paddr)) := by
  rw [State.mapPage, check_eq_ok] at hmap
  cases hmap.2
  have hfree := not_mem_keys_erase (k := vaddr) h.coherent.nodup
  refine ⟨?_, ?_, fun v hv => h.table_update ?_ hv⟩
  · refine ((h.coherent.erase vaddr).update hfree _).dropLast.push ?_ (update_self ..)
    exact fun hmem => hfree (keys_dropLast_sublist.mem hmem)
  · have hleng := (length_erase (k := vaddr)).trans h.threeSlots
    exact (length_push (hleng ▸ Nat.succ_pos 2)).trans hleng
  · rw [Option.map_some, Option.map_some, cfg.pageStart_make]

theorem Refines.unmapPage (hun : s.unmapPage vaddr = .ok s') : Refines cfg s' (update mapped vaddr none) := by
  rw [State.unmapPage, check_eq_ok] at hun
  cases hun.2
  refine ⟨?_, length_erase.trans h.threeSlots, fun v hv => h.table_update rfl hv⟩
  exact (h.coherent.erase vaddr).update (not_mem_keys_erase h.coherent.nodup) none

/-- One page is moved, to a page that no slot that stays has. -/
theorem Refines.remapPage (hv : cfg.Aligned vaddr) (hne : vaddr ≠ newVaddr)
    (hfree : newVaddr ∉ keys (s.pTableCache.take 2)) (hre : s.remapPage cfg vaddr newVaddr = .ok s') :
    Refines cfg s' (update (update mapped vaddr none) newVaddr (mapped vaddr)) := by
  rw [State.remapPage] at hre
  split at hre
  · cases hre
  rename_i moved hm
  cases hre
  have hleng := (length_erase (k := vaddr)).trans h.threeSlots
  -- the slots that stay when the entry is pushed in
  have hf' : newVaddr ∉ keys (erase vaddr s.pTableCache).dropLast := by
    intro hmem
    rw [dropLast_eq_take, hleng] at hmem
    exact hfree (mem_keys_take_erase hmem)
  have hf'' : vaddr ∉ keys (erase vaddr s.pTableCache).dropLast := fun hmem => not_mem_keys_erase h.coherent.nodup
      (keys_dropLast_sublist.mem hmem)
  refine ⟨?_, ?_, ?_⟩
  · refine FrontCache.Coherent.push ?_ hf' (update_self ..)
    exact (((h.coherent.erase vaddr).dropLast.update hf' _).update hf'' _).update hf' _
  · exact (length_push (hleng ▸ Nat.succ_pos 2)).trans hleng
  · intro v hv'
    have hmap : (some moved).map cfg.pageStart = (mapped vaddr).map cfg.frame := hm ▸ h.table vaddr hv
    by_cases hnew : v = newVaddr
    · subst hnew
      simp only [updateCache, setTable, eraseCacheEntry, update_self,
        update_of_ne hne.symm, Option.getD_some, Option.map_some,
        cfg.pageStart_updateVaddr]
      exact hmap
    · simp only [updateCache, setTable, eraseCacheEntry, update_of_ne hnew]
      by_cases hold : v = vaddr
      · rw [hold, update_self, update_self]
        rfl
      · rw [update_of_ne hold, update_of_ne hold, update_of_ne hnew]
        exact h.table v hv'

end

/-! ## Regions -/

variable {size : Int64} {i : Nat}

/-- A loop that sets the pages of a region one after the other. -/
theorem Refines.regionLoop {setPage : State Entry → Nat → Except Fault (State Entry)}
    {f : Addr → Option Addr} (h : Refines cfg s mapped) (hva : cfg.Aligned vaddr)
    (hset : ∀ {s s' mapped i}, Refines cfg s mapped → setPage s i = .ok s' →
      Refines cfg s' (update mapped (cfg.page vaddr i) (f (cfg.page vaddr i))))
    (hlo : (List.range (cfg.numPages size)).foldlM setPage s = .ok s') :
    Refines cfg s' fun v => if InRegion vaddr size v then f v else mapped v := by
  have hpa : Refines cfg s' fun v =>
      if (v - vaddr).toNat < cfg.numPages size * 2 ^ cfg.pageShift then f v else mapped v := by
    refine foldlM_range_invariant (P := fun i s => Refines cfg s fun v =>
      if (v - vaddr).toNat < i * 2 ^ cfg.pageShift then f v else mapped v)
      hlo (h.congr fun v _ => by simp) fun i hi s s' hs hpag => (hset hs hpag).congr fun v hv => ?_
    exact update_first hva hv (lt_trans (mul_lt_of_lt_numPages hi) (by decide)) f mapped
  exact hpa.congr fun v hv => by simp only [inRegion_iff hva hv]

/-- The map while the first `n` pages of a region have been moved. -/
def movedPages (cfg : Config Entry) (mapped : Addr → Option Addr) (vaddr newVaddr : Addr) (n : Nat)
    (v : Addr) : Option Addr :=
  if (v - newVaddr).toNat < n * 2 ^ cfg.pageShift then mapped (vaddr + (v - newVaddr))
  else if (v - vaddr).toNat < n * 2 ^ cfg.pageShift then none
  else mapped v

/-- The source and the destination of a `remap` have no page in common. -/
def Apart (vaddr : Addr) (size : Int64) (newVaddr : Addr) : Prop :=
  ¬ InRegion vaddr size newVaddr ∧ ¬ InRegion newVaddr size vaddr

/-- One page more has been moved. -/
theorem movedPages_succ (hva : cfg.Aligned vaddr)
    (hnew : cfg.Aligned newVaddr) (ha : Apart vaddr size newVaddr) (hi : i < cfg.numPages size)
    (hv : cfg.Aligned v) : update
        (update (movedPages cfg mapped vaddr newVaddr i) (cfg.page vaddr i) none)
        (cfg.page newVaddr i) (movedPages cfg mapped vaddr newVaddr i (cfg.page vaddr i)) v =
      movedPages cfg mapped vaddr newVaddr (i + 1) v := by
  have hi64 : i * 2 ^ cfg.pageShift < 2 ^ 64 := lt_trans (mul_lt_of_lt_numPages hi) (by decide)
  have hle : (i + 1) * 2 ^ cfg.pageShift ≤ cfg.numPages size * 2 ^ cfg.pageShift := Nat.mul_le_mul_right _ hi
  have hpos := Nat.two_pow_pos cfg.pageShift
  -- the source page is in none of the first pages, neither of the destination nor of the source
  have hsrc := le_sub_page hva hnew ha.1 ha.2 hi
  have hse : (cfg.page vaddr i - vaddr).toNat = i * 2 ^ cfg.pageShift := (eq_page_iff hi64).1 rfl
  have hf : movedPages cfg mapped vaddr newVaddr i (cfg.page vaddr i) = mapped (cfg.page vaddr i) := by
    rw [Nat.succ_mul] at hle
    rw [movedPages, if_neg (by omega), if_neg (by omega)]
  by_cases hdst : v = cfg.page newVaddr i
  · subst hdst
    rw [update_self, hf, movedPages, if_pos ((lt_succ_iff hnew hv hi64).2 (.inr rfl)), sub_page]
    rfl
  have hnext := (lt_succ_iff hnew hv hi64).trans (or_iff_left hdst)
  rw [update_of_ne hdst]
  by_cases hv' : v = cfg.page vaddr i
  · subst hv'
    rw [update_self, movedPages, if_neg (by omega), if_pos]
    rw [hse, Nat.succ_mul]
    omega
  · have hn' := (lt_succ_iff hva hv hi64).trans (or_iff_left hv')
    rw [update_of_ne hv']
    simp only [movedPages, hnext, hn']

/-- The destination pages of a `remap` are in no slot that stays: page `i` is pushed in when `i` slots
have fallen out, and one more falls out then. -/
def Uncached (cfg : Config Entry) (s : State Entry) (size : Int64) (newVaddr : Addr) : Prop :=
  ∀ i < cfg.numPages size, cfg.page newVaddr i ∉ keys (s.pTableCache.take (2 - i))

theorem pTableCache_of_remapPage (hre : s.remapPage cfg vaddr newVaddr = .ok s') : ∃ entry, s'.pTableCache =
      push newVaddr entry (erase vaddr s.pTableCache) := by
  rw [State.remapPage] at hre
  split at hre
  · cases hre
  · cases hre
    exact ⟨_, rfl⟩

/-- Moving page `i` leaves the pages that are yet to come out of the slots. -/
theorem uncached_remapPage {m : Nat} (him : i < m) (hm : m * 2 ^ cfg.pageShift < 2 ^ 64)
    (hfree : cfg.page newVaddr m ∉ keys (s.pTableCache.take (2 + i - m)))
    (hre : s.remapPage cfg vaddr (cfg.page newVaddr i) = .ok s') :
    cfg.page newVaddr m ∉ keys (s'.pTableCache.take (2 + (i + 1) - m)) := by
  obtain ⟨entry, hca⟩ := pTableCache_of_remapPage hre
  rw [hca]
  intro hmem
  obtain hn | hso : 2 + (i + 1) - m = 0 ∨ 2 + (i + 1) - m = 2 + i - m + 1 := by omega
  · rw [hn] at hmem
    cases hmem
  · rw [hso] at hmem
    rcases mem_keys_take_push hmem with heq | hmem
    · have hi : i * 2 ^ cfg.pageShift < 2 ^ 64 := lt_of_le_of_lt (Nat.mul_le_mul_right _ him.le) hm
      have hsa := (eq_page_iff hi).1 heq
      rw [(eq_page_iff hm).1 rfl, Nat.mul_left_inj (Nat.two_pow_pos _).ne'] at hsa
      exact him.ne' hsa
    · exact hfree (mem_keys_take_erase hmem)

theorem Refines.remapLoop (h : Refines cfg s mapped) (hva : cfg.Aligned vaddr)
    (hnew : cfg.Aligned newVaddr) (ha : Apart vaddr size newVaddr) (hun : Uncached cfg s size newVaddr)
    (hlo : (List.range (cfg.numPages size)).foldlM
      (fun s i => s.remapPage cfg (cfg.page vaddr i) (cfg.page newVaddr i)) s = .ok s') :
    Refines cfg s' (movedPages cfg mapped vaddr newVaddr (cfg.numPages size)) := by
  have hpa : ∀ i < cfg.numPages size, i * 2 ^ cfg.pageShift < 2 ^ 64 :=
    fun i hi => lt_trans (mul_lt_of_lt_numPages hi) (by decide)
  refine (foldlM_range_invariant (P := fun i s =>
    Refines cfg s (movedPages cfg mapped vaddr newVaddr i) ∧
    ∀ m, i ≤ m → m < cfg.numPages size → cfg.page newVaddr m ∉ keys (s.pTableCache.take (2 + i - m)))
    hlo ⟨h.congr fun v _ => by simp [movedPages], fun m _ hm => hun m hm⟩ ?_).1
  rintro i hi s s' ⟨hs, hfree⟩ hpag
  have hsrc : cfg.Aligned (cfg.page vaddr i) := aligned_page hva i
  have hne : cfg.page vaddr i ≠ cfg.page newVaddr i := by
    intro heq
    have hle := le_sub_page hva hnew ha.1 ha.2 hi
    rw [heq, (eq_page_iff (hpa i hi)).1 rfl, Nat.mul_le_mul_right_iff (Nat.two_pow_pos _)] at hle
    omega
  refine ⟨?_, fun m hm hmN => ?_⟩
  · refine (hs.remapPage hsrc hne ?_ hpag).congr fun v hv =>
      movedPages_succ hva hnew ha hi hv
    simpa using hfree i le_rfl hi
  · exact uncached_remapPage hm (hpa m hmN) (hfree m (Nat.le_of_succ_le hm) hmN) hpag

/-! ## Calls -/

theorem Refines.lookup (h : Refines cfg s mapped) (v : Addr) : Refines cfg (s.lookup cfg v).2 mapped ∧
      (s.lookup cfg v).1.map cfg.pageStart = (mapped (cfg.pageAlign v)).map cfg.frame := by
  have hta := h.table _ (aligned_pageAlign v)
  rw [State.lookup]
  rcases hf : find (cfg.pageAlign v) s.pTableCache with - | entry
  · rcases hent : s.pTable (cfg.pageAlign v) with - | entry
    · rw [hent] at hta
      exact ⟨h, hta⟩
    rw [hent] at hta
    refine ⟨⟨?_, ?_, h.table⟩, hta⟩
    · exact h.coherent.dropLast.push (fun hmem => find_eq_none hf (keys_dropLast_sublist.mem hmem)) hent
    · exact (length_push (h.threeSlots ▸ Nat.succ_pos 2)).trans h.threeSlots
  · rw [h.coherent.find_eq hf] at hta
    exact ⟨h, hta⟩

/-- Every `remap` is of regions that are apart. -/
def Op.RegionsApart : Op → Prop
  | .remap vaddr size newVaddr => Apart vaddr size newVaddr
  | _ => True

/-- Every `remap` is of regions that are apart, and finds its destination out of the way. -/
def Allowed (cfg : Config Entry) (s : State Entry) : Op → Prop
  | .remap vaddr size newVaddr => Apart vaddr size newVaddr ∧ Uncached cfg s size newVaddr
  | _ => True

instance : (op : Op) → Decidable op.RegionsApart
  | .remap .. => inferInstanceAs (Decidable (¬ _ ∧ ¬ _))
  | .map .. | .unmap .. | .lookup _ | .translate _ => isTrue trivial

instance (s : State Entry) : (op : Op) → Decidable (Allowed cfg s op)
  | .remap .. => inferInstanceAs (Decidable ((¬ _ ∧ ¬ _) ∧ ∀ i < _, _ ∉ _))
  | .map .. | .unmap .. | .lookup _ | .translate _ => isTrue trivial

theorem Refines.exec {op : Op} (h : Refines cfg s mapped) (ha : Allowed cfg s op)
    (hex : s.exec cfg op = .ok s') : Refines cfg s' (op.apply mapped) := by
  cases op with
  | map vaddr paddr size flags =>
    rw [State.exec, State.map, check_eq_ok, not_not] at hex
    refine h.regionLoop (f := fun v => some (paddr + (v - vaddr))) hex.1 (fun hs hpa => ?_) hex.2
    rw [sub_page]
    exact hs.mapPage hpa
  | unmap vaddr size =>
    rw [State.exec, State.unmap, check_eq_ok, not_not] at hex
    exact h.regionLoop hex.1 (fun hs hpa => hs.unmapPage hpa) hex.2
  | remap vaddr size newVaddr =>
    rw [State.exec, State.remap, check_eq_ok, check_eq_ok, not_not, not_not] at hex
    obtain ⟨hva, hnew, hlo⟩ := hex
    refine (h.remapLoop hva hnew ha.1 ha.2 hlo).congr fun v hv => ?_
    simp only [Op.apply, movedPages, inRegion_iff hva hv, inRegion_iff hnew hv]
  | lookup v =>
    cases hex
    exact (h.lookup v).1
  | translate v =>
    cases hex
    exact (h.lookup v).1

end

/-! ## Runs -/

section

variable {Entry : Type}

/-- One call, with the calls so far. -/
def next (cfg : Config Entry) (s : State Entry × List Op) (op : Op) : Except Fault (State Entry × List Op) :=
  s.1.exec cfg op >>= fun s' => .ok (s', s.2 ++ [op])

theorem refines_of_reaches {cfg : Config Entry} {s : State Entry × List Op}
    (h : Reaches (next cfg) (fun s => Allowed cfg s.1) (.init Entry, []) s) : Refines cfg s.1 (mappedBy s.2) := by
  refine h.invariant (P := fun s => Refines cfg s.1 (mappedBy s.2)) refines_init ?_
  intro s s' op _ hinv ha hnext
  obtain ⟨t, hex, ht⟩ := bind_eq_ok.1 hnext
  cases ht
  rw [mappedBy_concat]
  exact hinv.exec ha hex

/-- **The page table is the map.**  In a run in which every `remap` finds its destination out of the
slots that stay, a lookup succeeds exactly for a mapped page, and finds its physical page. -/
theorem lookup_refines {cfg : Config Entry} {s : State Entry × List Op}
    (h : Reaches (next cfg) (fun s => Allowed cfg s.1) (.init Entry, []) s) (v : Addr) :
    (s.1.lookup cfg v).1.map cfg.pageStart = (mappedBy s.2 (cfg.pageAlign v)).map cfg.frame ∧
    (s.1.translate cfg v).1 = (mappedBy s.2 (cfg.pageAlign v)).map fun paddr => cfg.pageOffset v + cfg.frame paddr := by
  have hlo := ((refines_of_reaches h).lookup v).2
  refine ⟨hlo, ?_⟩
  have htr : (s.1.translate cfg v).1 = ((s.1.lookup cfg v).1.map cfg.pageStart).map (cfg.pageOffset v + ·) := by
    rw [Option.map_map]
    rfl
  rw [htr, hlo, Option.map_map]
  rfl

end

/-- Two pages are mapped, the first is moved, and the second is unmapped. -/
theorem lookup_refines_moved : ∃ s, Reaches (next (.arm 0)) (fun s => Allowed (.arm 0) s.1) (.init ArmEntry, []) s ∧
      (s.1.translate (.arm 0) 0x5123).1 = some 0x8123 ∧
      (s.1.translate (.arm 0) 0x2123).1 = none := by
  obtain ⟨s, hre, hm, hg⟩ := exists_reaches (next (.arm 0)) (fun s => Allowed (.arm 0) s.1) (.init ArmEntry, [])
    [.map 0x1000 0x8000 0x2000 0, .remap 0x1000 0x1000 0x5000, .lookup 0x2000, .unmap 0x2000 0x1000]
    (fun s => mappedBy s.2 ((arm 0).pageAlign 0x5123) = some 0x8000 ∧
      mappedBy s.2 ((arm 0).pageAlign 0x2123) = none) (by decide +kernel)
  refine ⟨s, hre, ?_, ?_⟩
  · rw [(lookup_refines hre _).2, hm]
    decide
  · rw [(lookup_refines hre _).2, hg]
    rfl

/-- A page is moved over another one that has just been mapped, and then unmapped there: the lookup
finds the page that was there before the move. -/
theorem stale_after_unmap : ∃ s, Reaches (next (.arm 0)) (fun _ => Op.RegionsApart) (.init ArmEntry, []) s ∧
      mappedBy s.2 0x2000 = none ∧
      (s.1.lookup (.arm 0) 0x2000).1.map (arm 0).pageStart = some 0x9000 :=
  exists_reaches (next (.arm 0)) (fun _ => Op.RegionsApart) (.init ArmEntry, [])
    [.map 0x1000 0x8000 0x1000 0, .map 0x2000 0x9000 0x1000 0, .remap 0x1000 0x1000 0x2000,
      .unmap 0x2000 0x1000] _ (by decide +kernel)

end GuardianCouncil.PageTable
