import GuardianCouncil.Trie.Shape

/-!
# Insertion

`insert` walks down as long as there is a kid whose prefix is a prefix of the new one.  At the node it
stops at, either the new prefix ends, or the first bit after the node's prefix decides which leg is the
right one: an empty slot gets a leaf, and otherwise the leg is split where the two prefixes part.  One
of the two legs is always right, for two kids differ in that bit; so the end of `insert` is not reached.
-/

namespace GuardianCouncil.Trie

open Fallible Function PrefixMask
open scoped Links

variable {w : Nat} {Value : Type} {s : Heap w Value} {p c : Handle} {n nc : Node w Value}
  {key kidKey : BitVec w} {mask : PrefixMask w} {val : Value} {i : Fin 2}

/-- The prefix of the node is a prefix of the new one. -/
def Node.Leads (n : Node w Value) (key : BitVec w) (mask : PrefixMask w) : Prop :=
  n.len ≤ mask.len ∧ ∀ k < n.len, n.bit k = key.getMsbD k

theorem goesAfter_test : (n.accepts key && n.mask.bits &&& mask.bits == n.mask.bits) = true ↔ n.Leads key mask := by
  rw [Bool.and_eq_true, beq_iff_eq, and_bits_iff, n.accepts_iff, and_comm]
  rfl

/-- What an insertion does. -/
structure Inserted (s s' : Heap w Value) (h : Handle) (e : Entry w Value) : Prop where
  inv : Inv s'
  stored : s'.stored [] = update (s.stored []) h (some e)
  fresh : s.stored [] h = none

namespace Heap

theorem walk_spec (hgood : (s.links []).Good 0) (key : BitVec w) (mask : PrefixMask w) (fuel : Nat)
    (hp : s.linked [] p = some n) (hf : mask.len < fuel + n.len) (hlea : n.Leads key mask) :
    ∃ q nq, s.walk key mask fuel p = .ok q ∧ s.linked [] q = some nq ∧ nq.Leads key mask ∧
      ∀ i c nc, (s.links []).kid q i = some c → s.linked [] c = some nc → ¬ nc.Leads key mask := by
  induction fuel generalizing p n with
  | zero =>
    have hle := hlea.1
    omega
  | succ fuel ih =>
    have hd : ∀ i c nc, (s.links []).kid p i = some c → s.linked [] c = some nc →
        nc.Leads key mask → ∃ q nq, s.walk key mask fuel c = .ok q ∧ s.linked [] q = some nq ∧
          nq.Leads key mask ∧ ∀ i c nc, (s.links []).kid q i = some c → s.linked [] c = some nc →
            ¬ nc.Leads key mask := by
      intro i c nc hc hnc hlead
      have hlt := hgood.len_lt hc
      rw [len_of_linked hp, len_of_linked hnc] at hlt
      exact ih hnc (by omega) hlead
    obtain ⟨r₀, hr₀, hs₀, hn₀⟩ := kidIf_spec hgood hp 0
      fun k => k.accepts key && k.mask.bits &&& mask.bits == k.mask.bits
    obtain ⟨r₁, hr₁, hs₁, hn₁⟩ := kidIf_spec hgood hp 1
      fun k => k.accepts key && k.mask.bits &&& mask.bits == k.mask.bits
    rw [walk, deref_of_linked hp, ok_bind, goesAfter, hr₀, ok_bind]
    rcases r₀ with - | c
    · rw [goesAfter, hr₁, ok_bind]
      rcases r₁ with - | c
      · refine ⟨p, n, rfl, hp, hlea, fun i c nc hc hnc => ?_⟩
        rw [← goesAfter_test, Bool.not_eq_true]
        have hi : i = 0 ∨ i = 1 := by omega
        rcases hi with rfl | rfl
        · exact hn₀ rfl c nc hc hnc
        · exact hn₁ rfl c nc hc hnc
      · obtain ⟨nc, hc, hnc, hte⟩ := hs₁ c rfl
        exact hd 1 c nc hc hnc (goesAfter_test.1 hte)
    · obtain ⟨nc, hc, hnc, hte⟩ := hs₀ c rfl
      exact hd 0 c nc hc hnc (goesAfter_test.1 hte)

/-- The loop down a leg ends at the new mask, or where the next bit differs. -/
theorem runDown_spec (key kidKey : BitVec w) (mask last : PrefixMask w) (fuel : Nat) (hle : last.len ≤ mask.len)
    (hf : mask.len < fuel + last.len) (hagree : ∀ k < last.len, key.getMsbD k = kidKey.getMsbD k) :
    ∃ m, runDown key kidKey mask fuel last = .ok m ∧ last.len ≤ m.len ∧ m.len ≤ mask.len ∧
      (∀ k < m.len, key.getMsbD k = kidKey.getMsbD k) ∧
      (m.len = mask.len ∨ key.getMsbD m.len ≠ kidKey.getMsbD m.len) := by
  induction fuel generalizing last with
  | zero => omega
  | succ fuel ih =>
    rw [runDown]
    by_cases hend : last.len = mask.len
    · refine ⟨last, if_pos (.inr (bits_inj.2 hend)), le_rfl, hle, hagree, .inl hend⟩
    have hext : last.extend.len = last.len + 1 := by
      have hma := mask.len_le
      change min (last.len + 1) w = _
      omega
    by_cases hbit : key.getMsbD last.len = kidKey.getMsbD last.len
    · have ha' : ∀ k < last.extend.len, key.getMsbD k = kidKey.getMsbD k := by
        intro k hk
        rw [hext] at hk
        rcases Nat.lt_succ_iff_lt_or_eq.1 hk with hk | rfl
        · exact hagree k hk
        · exact hbit
      obtain ⟨m, hm, hla, hre⟩ := ih last.extend (by omega) (by omega) ha'
      refine ⟨m, ?_, by omega, hre⟩
      rw [if_neg, hm]
      rw [not_or, not_not, and_bits_eq_iff, bits_inj]
      exact ⟨ha', hend⟩
    · refine ⟨last, if_pos (.inl ?_), le_rfl, hle, hagree, .inr hbit⟩
      rw [Ne, and_bits_eq_iff]
      exact fun h => hbit (h last.len (by omega))

/-! ## The leg -/

/-- The new node, below a given one. -/
def newNode (key : BitVec w) (mask : PrefixMask w) (val : Option Value) (parent : Handle) : Node w Value :=
  (Node.make key mask val).setParent parent

theorem newNode_bit (key : BitVec w) (mask : PrefixMask w) (val : Option Value) (parent : Handle) {k : Nat}
    (hk : k < mask.len) : (newNode key mask val parent).bit k = key.getMsbD k := by
  change (key &&& mask.bits).getMsbD k = _
  rw [BitVec.getMsbD_and, mask.getMsbD_bits, decide_eq_true hk, Bool.and_true]

theorem newNode_entry (hkey : key &&& mask.bits = key) (val : Value) (parent : Handle) :
    (newNode key mask (some val) parent).entry = some ⟨key, mask.len, val⟩ := by
  change some (Entry.mk (key &&& mask.bits) mask.len val) = _
  rw [hkey]

/-- Below a given node a leaf is added in an empty slot. -/
def hang (s : Heap w Value) (p : Handle) (i : Fin 2) (leaf : Node w Value) : Heap w Value :=
  (s.new leaf).modify p (·.setKid i s.next)

section

variable (hinv : Fresh s) (hp : s.linked [] p = some n) (leaf : Node w Value)
include hinv hp

theorem linked_new_of_linked : (s.new leaf).linked [] p = some n := by
  rw [linked_new _ (by simp), update_of_ne (hinv.ne_next hp)]
  exact hp

theorem links_hang (hki : ∀ j, leaf.kids j = none) :
    (s.hang p i leaf).links [] = ((s.links []).add s.next leaf.parent leaf.len leaf.bit).setKid p i (some s.next) := by
  rw [hang, links_setKid (linked_new_of_linked hinv hp leaf), links_new (by simp) hki]

theorem stored_hang : (s.hang p i leaf).stored [] = update (s.stored []) s.next leaf.entry := by
  rw [hang, stored_modify (linked_new_of_linked hinv hp leaf) rfl, stored_new (by simp)]

end

theorem stored_next (hinv : Fresh s) : s.stored [] s.next = none := by
  rw [stored, linked_nil, hinv s.next le_rfl]
  rfl

section

-- an empty slot, where the other kid, if there is one, differs in the next bit
variable (hp : s.linked [] p = some n) (hlea : n.Leads key mask) (hlt : n.len < mask.len) (hi : n.kids i = none)
  (hsl : i = 1 → n.kids 0 ≠ none)
  (ho : ∀ j c nc, (s.links []).kid p j = some c → s.linked [] c = some nc → nc.bit n.len ≠ key.getMsbD n.len)
include hp hlea hlt hi hsl ho

theorem good_hang (hgood : (s.links []).Good 0) (hfresh : Fresh s) :
    ((s.hang p i (newNode key mask (some val) p)).links []).Good 0 := by
  rw [links_hang hfresh hp _ fun _ => rfl]
  refine hgood.addLeaf (alloc_of_linked hp) hfresh.next_not_alloc ?_ ?_ ?_ ?_ ?_
  · rw [kid_of_linked hp, hi]
  · rwa [kid_of_linked hp]
  · rw [len_of_linked hp]
    exact hlt
  · intro k hk
    rw [len_of_linked hp] at hk
    rw [bit_of_linked hp, newNode_bit _ _ _ _ (hk.trans hlt), hlea.2 k hk]
  · intro j c hc
    obtain ⟨nc, hnc⟩ := linked_of_alloc (hgood.alloc_kid hc)
    rw [bit_of_linked hnc, len_of_linked hp, newNode_bit _ _ _ _ hlt]
    exact ho j c nc hc hnc

/-- An empty slot gets the new node. -/
theorem tryLeg_hang (hinv : Inv s) (hkey : key &&& mask.bits = key) :
    ∃ h s', s.tryLeg p key mask val i = .ok (some (h, s')) ∧ Inserted s s' h ⟨key, mask.len, val⟩ := by
  have hst := stored_hang (i := i) hinv.fresh hp (newNode key mask (some val) p)
  rw [newNode_entry hkey] at hst
  refine ⟨s.next, s.hang p i (newNode key mask (some val) p), ?_, ⟨?_, ?_, ?_⟩, hst, stored_next hinv.fresh⟩
  · rw [tryLeg, deref_of_linked hp, ok_bind, hi]
    rfl
  · exact good_hang hp hlea hlt hi hsl ho hinv.good hinv.fresh
  · rw [hst, links_hang hinv.fresh hp _ fun _ => rfl]
    intro c hc hbut ha hn
    have hfull := hinv.full c hc hbut
    have hnext := hinv.fresh.next_not_alloc
    have hn' := hinv.fresh.ne_next hp
    by_cases hcn : c = s.next
    · rw [hcn, update_self] at hn
      cases hn
    · rw [update_of_ne hcn] at hn
      grind
  · exact (hinv.fresh.new _).modify _ _

end

/-- A leg whose kid differs in the next bit is not the right one. -/
theorem tryLeg_skip (hp : s.linked [] p = some n) (hlea : n.Leads key mask)
    (hc : n.kids i = some c) (hnc : s.linked [] c = some nc)
    (ha : ∀ k < n.len, n.bit k = nc.bit k) (hbit : nc.bit n.len ≠ key.getMsbD n.len) :
    s.tryLeg p key mask val i = .ok none := by
  have hf : mask.len < w + 1 + n.mask.len := by
    have hle := mask.len_le
    omega
  obtain ⟨m, hm, hla, -, hagree, -⟩ := runDown_spec key nc.key mask n.mask (w + 1) hlea.1 hf
    fun k hk => by rw [← hlea.2 k hk, ha k hk]
  have hlen : m.len = n.mask.len := by
    by_contra hne
    have hsh : n.mask.len < m.len := by omega
    exact hbit (hagree _ hsh).symm
  rw [tryLeg, deref_of_linked hp, ok_bind, hc]
  simp only
  rw [deref_of_linked hnc, ok_bind, hm, ok_bind, if_pos (bits_inj.2 hlen)]

/-- The new node between a node and its kid. -/
def splitLeg (s : Heap w Value) (p c : Handle) (i : Fin 2) (mid : Node w Value) : Heap w Value :=
  (((s.new mid).modify c (·.setParent s.next)).modify s.next (·.setKid 0 c)).modify p
    (·.setKid i s.next)

section

variable (hfresh : Fresh s) (hp : s.linked [] p = some n) (hnc : s.linked [] c = some nc) (hcp : p ≠ c)
  (mid : Node w Value)

include hfresh hnc

/-- What the writes of the split find. -/
theorem linked_split_kid : (s.new mid).linked [] c = some nc := by
  rw [linked_new _ (by simp), update_of_ne (hfresh.ne_next hnc)]
  exact hnc

theorem linked_split_mid : ((s.new mid).modify c (·.setParent s.next)).linked [] s.next = some mid := by
  rw [linked_modify _ (linked_split_kid hfresh hnc mid),
    update_of_ne (hfresh.ne_next hnc).symm, linked_new _ (by simp), update_self]

include hp hcp

theorem linked_split_node : (((s.new mid).modify c (·.setParent s.next)).modify s.next (·.setKid 0 c)).linked [] p =
      some n := by
  rw [linked_modify _ (linked_split_mid hfresh hnc mid), update_of_ne (hfresh.ne_next hp),
    linked_modify _ (linked_split_kid hfresh hnc mid), update_of_ne hcp,
    linked_new _ (by simp), update_of_ne (hfresh.ne_next hp)]
  exact hp

theorem links_splitLeg (hki : ∀ j, mid.kids j = none) : (s.splitLeg p c i mid).links [] =
      ((((s.links []).add s.next mid.parent mid.len mid.bit).setParent c (some s.next)).setKid s.next 0
        (some c)).setKid p i (some s.next) := by
  rw [splitLeg, links_setKid (linked_split_node hfresh hp hnc hcp mid),
    links_setKid (linked_split_mid hfresh hnc mid), links_setParent (linked_split_kid hfresh hnc mid),
    links_new (by simp) hki]

theorem stored_splitLeg (hmid : mid.entry = none) : (s.splitLeg p c i mid).stored [] = s.stored [] := by
  rw [splitLeg, stored_modify (linked_split_node hfresh hp hnc hcp mid) rfl,
    stored_modify (linked_split_mid hfresh hnc mid) rfl,
    stored_modify (linked_split_kid hfresh hnc mid) rfl, stored_new (by simp), hmid,
    ← stored_next hfresh, update_eq_self]

theorem linked_splitLeg_mid : (s.splitLeg p c i mid).linked [] s.next = some (mid.setKid 0 c) := by
  rw [splitLeg, linked_modify _ (linked_split_node hfresh hp hnc hcp mid),
    update_of_ne (hfresh.ne_next hp).symm, linked_modify _ (linked_split_mid hfresh hnc mid),
    update_self]

theorem linked_splitLeg_kid : (s.splitLeg p c i mid).linked [] c = some (nc.setParent s.next) := by
  rw [splitLeg, linked_modify _ (linked_split_node hfresh hp hnc hcp mid),
    update_of_ne hcp.symm, linked_modify _ (linked_split_mid hfresh hnc mid),
    update_of_ne (hfresh.ne_next hnc), linked_modify _ (linked_split_kid hfresh hnc mid),
    update_self]

end

theorem fresh_splitLeg (h : Fresh s) (p c : Handle) (i : Fin 2) (mid : Node w Value) : Fresh (s.splitLeg p c i mid) :=
  (((h.new _).modify _ _).modify _ _).modify _ _

/-- The prefixes of the new node and of the kid part below that of the node, and above that of the kid. -/
theorem runDown_part (hlea : n.Leads key mask) (hlt : n.len < mask.len)
    (ha : ∀ k < n.len, n.bit k = nc.bit k) (hbit : nc.bit n.len = key.getMsbD n.len) (hend : ¬ nc.Leads key mask) :
    ∃ m, runDown key nc.key mask (w + 1) n.mask = .ok m ∧ n.len < m.len ∧ m.len < nc.len ∧
      m.len ≤ mask.len ∧ (∀ k < m.len, key.getMsbD k = nc.bit k) ∧
      (m.len = mask.len ∨ key.getMsbD m.len ≠ nc.bit m.len) := by
  have hf : mask.len < w + 1 + n.mask.len := by
    have hle := mask.len_le
    omega
  obtain ⟨m, hm, hla, hle, hagree, hst⟩ := runDown_spec key nc.key mask n.mask (w + 1) hlea.1
    hf fun k hk => by rw [← hlea.2 k hk, ha k hk]
  refine ⟨m, hm, ?_, ?_, hle, hagree, hst⟩
  · rcases hst with hst | hst
    · exact hst ▸ hlt
    · refine lt_of_le_of_ne hla fun heq => hst ?_
      rw [← heq]
      exact hbit.symm
  · by_contra hge
    exact hend ⟨(not_lt.1 hge).trans hle, fun k hk => (hagree k (hk.trans_le (not_lt.1 hge))).symm⟩

section Part

variable {m : PrefixMask w} (hinv : Inv s) (hp : s.linked [] p = some n)
  (hc : (s.links []).kid p i = some c) (hnc : s.linked [] c = some nc) (hlow : n.len < m.len)
  (hhigh : m.len < nc.len) (hagree : ∀ k < m.len, key.getMsbD k = nc.bit k)

include hinv hp hc hnc hlow hhigh hagree

theorem good_splitLeg : ((s.splitLeg p c i (newNode key m none p)).links []).Good 0 := by
  rw [links_splitLeg hinv.fresh hp hnc (hinv.good.kid_ne hc).symm _ fun _ => rfl]
  refine hinv.good.split hc hinv.fresh.next_not_alloc ?_ ?_ ?_
  · rw [len_of_linked hp]
    exact hlow
  · rw [len_of_linked hnc]
    exact hhigh
  · intro k (hk : k < m.len)
    rw [newNode_bit _ _ _ _ hk, bit_of_linked hnc, hagree k hk]

/-- The new prefix ends where the two part. -/
theorem inserted_mid (hkey : key &&& mask.bits = key) (hm : m.bits = mask.bits) :
    Inserted s ((s.splitLeg p c i (newNode key m none p)).modify s.next (·.setValue (some val))) s.next
      ⟨key, mask.len, val⟩ := by
  have hcp := (hinv.good.kid_ne hc).symm
  have hmid := linked_splitLeg_mid (i := i) hinv.fresh hp hnc hcp (newNode key m none p)
  have hst := stored_splitLeg (i := i) hinv.fresh hp hnc hcp (newNode key m none p) rfl
  have hent : ((s.splitLeg p c i (newNode key m none p)).modify s.next
      (·.setValue (some val))).stored [] = update (s.stored []) s.next (some ⟨key, mask.len, val⟩) := by
    have hv : (some val).map (Entry.mk (key &&& m.bits) m.len) = some ⟨key, mask.len, val⟩ := by
      rw [Option.map_some, hm, hkey, bits_inj.1 hm]
    rw [stored_setValue hmid, hst, ← hv]
    rfl
  refine ⟨⟨?_, ?_, ?_⟩, hent, stored_next hinv.fresh⟩
  · rw [links_setValue hmid]
    exact good_splitLeg hinv hp hc hnc hlow hhigh hagree
  · rw [hent, links_setValue hmid, links_splitLeg hinv.fresh hp hnc hcp _ fun _ => rfl]
    intro d hd hbut ha hn
    have hfull := hinv.full d hd hbut
    by_cases hdn : d = s.next
    · rw [hdn, update_self] at hn
      cases hn
    · rw [update_of_ne hdn] at hn
      grind
  · exact (fresh_splitLeg hinv.fresh _ _ _ _).modify _ _

/-- The new prefix goes on where the two part. -/
theorem inserted_beside (hkey : key &&& mask.bits = key) (hle : m.len < mask.len)
    (hsto : key.getMsbD m.len ≠ nc.bit m.len) : Inserted s ((s.splitLeg p c i (newNode key m none p)).hang s.next 1
      (newNode key mask (some val) s.next)) (s.splitLeg p c i (newNode key m none p)).next
      ⟨key, mask.len, val⟩ := by
  have hcp := (hinv.good.kid_ne hc).symm
  have hmid := linked_splitLeg_mid (i := i) hinv.fresh hp hnc hcp (newNode key m none p)
  have hkid := linked_splitLeg_kid (i := i) hinv.fresh hp hnc hcp (newNode key m none p)
  have hli := links_splitLeg (i := i) hinv.fresh hp hnc hcp (newNode key m none p) fun _ => rfl
  have hst := stored_splitLeg (i := i) hinv.fresh hp hnc hcp (newNode key m none p) rfl
  have hfresh := fresh_splitLeg hinv.fresh p c i (newNode key m none p)
  have hent := stored_hang (i := 1) hfresh hmid (newNode key mask (some val) s.next)
  rw [newNode_entry hkey, hst] at hent
  have hnext := stored_next hfresh
  rw [hst] at hnext
  refine ⟨⟨?_, ?_, (hfresh.new _).modify _ _⟩, hent, hnext⟩
  · refine good_hang hmid ⟨hle.le, fun k hk => newNode_bit key m (none : Option Value) p hk⟩ hle (by rfl)
      (fun _ => by simp [Node.setKid]) ?_ (good_splitLeg hinv hp hc hnc hlow hhigh hagree) hfresh
    intro j d nd hd hnd
    rw [kid_of_linked hmid] at hd
    have hdc : d = c := by
      have hj : j = 0 ∨ j = 1 := by omega
      rcases hj with rfl | rfl
      · exact (Option.some.inj hd).symm
      · cases hd
    subst hdc
    rw [hkid] at hnd
    cases hnd
    exact hsto.symm
  · rw [hent, links_hang hfresh hmid _ fun _ => rfl, hli]
    intro d hd hbut ha hn
    have hfull := hinv.full d hd hbut
    by_cases hdn : d = (s.splitLeg p c i (newNode key m none p)).next
    · rw [hdn, update_self] at hn
      cases hn
    · rw [update_of_ne hdn] at hn
      grind

end Part

/-- The leg whose kid agrees in the next bit is split where the prefixes part. -/
theorem tryLeg_split (hinv : Inv s) (hp : s.linked [] p = some n) (hlea : n.Leads key mask)
    (hlt : n.len < mask.len) (hkey : key &&& mask.bits = key) (hc : (s.links []).kid p i = some c)
    (hnc : s.linked [] c = some nc) (hbit : nc.bit n.len = key.getMsbD n.len) (hend : ¬ nc.Leads key mask) :
    ∃ h s', s.tryLeg p key mask val i = .ok (some (h, s')) ∧ Inserted s s' h ⟨key, mask.len, val⟩ := by
  have ha := hinv.good.bit_eq hc
  rw [len_of_linked hp, bit_of_linked hp, bit_of_linked hnc] at ha
  obtain ⟨m, hm, hlow, hhigh, hle, hagree, hst⟩ := runDown_part hlea hlt ha hbit hend
  have hkid : n.kids i = some c := by rw [← kid_of_linked hp, hc]
  have hrun : s.tryLeg p key mask val i = .ok (some
      (if m.bits = mask.bits then
        (s.next, (s.splitLeg p c i (newNode key m none p)).modify s.next (·.setValue (some val)))
      else ((s.splitLeg p c i (newNode key m none p)).next, (s.splitLeg p c i (newNode key m none p)).hang s.next 1
          (newNode key mask (some val) s.next)))) := by
    rw [tryLeg, deref_of_linked hp, ok_bind, hkid]
    simp only
    rw [deref_of_linked hnc, ok_bind, hm, ok_bind, if_neg (fun heq => (ne_of_gt hlow) (bits_inj.1 heq))]
    split <;> rfl
  rw [hrun]
  by_cases hend : m.bits = mask.bits
  · rw [if_pos hend]
    exact ⟨_, _, rfl, inserted_mid hinv hp hc hnc hlow hhigh hagree hkey hend⟩
  · rw [if_neg hend]
    rw [bits_inj] at hend
    exact ⟨_, _, rfl, inserted_beside hinv hp hc hnc hlow hhigh hagree hkey (by omega) (hst.resolve_left hend)⟩

/-- One of the two legs is right: the first bit after the node's prefix tells which. -/
theorem legs_spec (hinv : Inv s) (hp : s.linked [] p = some n) (hlea : n.Leads key mask)
    (hlt : n.len < mask.len) (hkey : key &&& mask.bits = key)
    (hend : ∀ i c nc, (s.links []).kid p i = some c → s.linked [] c = some nc → ¬ nc.Leads key mask) :
    (∃ h s', s.tryLeg p key mask val 0 = .ok (some (h, s')) ∧ Inserted s s' h ⟨key, mask.len, val⟩) ∨
      s.tryLeg p key mask val 0 = .ok none ∧ ∃ h s', s.tryLeg p key mask val 1 = .ok (some (h, s')) ∧
          Inserted s s' h ⟨key, mask.len, val⟩ := by
  have hki : ∀ j, (s.links []).kid p j = n.kids j := fun j => kid_of_linked hp
  have hca : ∀ j : Fin 2, j = 0 ∨ j = 1 := by omega
  rcases h0 : n.kids 0 with - | c₀
  · have h1 : n.kids 1 = none := by
      rw [← hki, hinv.good.lone (by rw [hki, h0])]
    refine .inl (tryLeg_hang hp hlea hlt h0 (fun h => absurd h (by decide)) ?_ hinv hkey)
    intro j c nc hc
    rw [hki] at hc
    rcases hca j with rfl | rfl
    · rw [h0] at hc
      cases hc
    · rw [h1] at hc
      cases hc
  · have hc₀ : (s.links []).kid p 0 = some c₀ := by rw [hki, h0]
    obtain ⟨nc₀, hnc₀⟩ := linked_of_alloc (hinv.good.alloc_kid hc₀)
    by_cases hbit₀ : nc₀.bit n.len = key.getMsbD n.len
    · exact .inl (tryLeg_split hinv hp hlea hlt hkey hc₀ hnc₀ hbit₀ (hend 0 c₀ nc₀ hc₀ hnc₀))
    have ha := hinv.good.bit_eq hc₀
    rw [len_of_linked hp, bit_of_linked hp, bit_of_linked hnc₀] at ha
    refine .inr ⟨tryLeg_skip hp hlea h0 hnc₀ ha hbit₀, ?_⟩
    rcases h1 : n.kids 1 with - | c₁
    · refine tryLeg_hang hp hlea hlt h1 (fun _ => by simp [h0]) ?_ hinv hkey
      intro j c nc hc hnc
      rw [hki] at hc
      rcases hca j with rfl | rfl
      · rw [h0] at hc
        cases hc
        rw [hnc₀] at hnc
        cases hnc
        exact hbit₀
      · rw [h1] at hc
        cases hc
    · -- the second kid differs from the first one in that bit, so it agrees with the key
      have hc₁ : (s.links []).kid p 1 = some c₁ := by rw [hki, h1]
      obtain ⟨nc₁, hnc₁⟩ := linked_of_alloc (hinv.good.alloc_kid hc₁)
      have hf := hinv.good.fork hc₀ hc₁
      rw [len_of_linked hp, bit_of_linked hnc₀, bit_of_linked hnc₁] at hf
      have hbit₁ : nc₁.bit n.len = key.getMsbD n.len := by
        by_contra hbit₁
        exact hf ((Bool.eq_not_of_ne hbit₀).trans (Bool.eq_not_of_ne hbit₁).symm)
      exact tryLeg_split hinv hp hlea hlt hkey hc₁ hnc₁ hbit₁ (hend 1 c₁ nc₁ hc₁ hnc₁)

/-- A node without a value gets it. -/
theorem inserted_here (hinv : Inv s) (hp : s.linked [] p = some n) (hkey : n.key = key)
    (hlen : n.len = mask.len) (hv : n.value = none) :
    Inserted s (s.modify p (·.setValue (some val))) p ⟨key, mask.len, val⟩ := by
  have hst := stored_setValue hp (some val)
  rw [Option.map_some, hkey, hlen] at hst
  refine ⟨⟨?_, ?_, hinv.fresh.modify _ _⟩, hst, ?_⟩
  · rw [links_setValue hp]
    exact hinv.good
  · rw [hst, links_setValue hp]
    intro d hd hbut ha hn
    by_cases hdp : d = p
    · rw [hdp, update_self] at hn
      cases hn
    · rw [update_of_ne hdp] at hn
      exact hinv.full d hd hbut ha hn
  · rw [stored_of_linked hp, Node.entry, hv]
    rfl

/-- **Insertion** succeeds, and stores the value under the new prefix. -/
theorem insert_spec (hinv : Inv s) (key : BitVec w) {width : Nat} (hwi : 1 ≤ width) (hw : width ≤ w)
    (val : Value) (hnew : ∀ h e, s.stored [] h = some e →
      ¬ (e.key = key &&& (ofWidth w width).bits ∧ e.width = width)) : ∃ h s', s.insert key width val = .ok (h, s') ∧
      Inserted s s' h ⟨key &&& (ofWidth w width).bits, width, val⟩ := by
  have hlen : (ofWidth w width).len = width := min_eq_left hw
  simp only [insert]
  generalize ofWidth w width = mask at hnew hlen ⊢
  have hkey : key &&& mask.bits &&& mask.bits = key &&& mask.bits := by
    rw [BitVec.and_assoc, BitVec.and_self]
  generalize key &&& mask.bits = key at hnew hkey ⊢
  obtain ⟨root, hro⟩ := linked_of_alloc hinv.good.alloc_root
  have hr' : root.len = 0 := by rw [← len_of_linked hro, hinv.good.len_root]
  obtain ⟨p, n, hwa, hp, hlea, hend⟩ := walk_spec hinv.good key mask (w + 1) hro (by omega)
    ⟨by omega, fun k hk => by omega⟩
  rw [hwa, ok_bind, deref_of_linked hp, ok_bind]
  by_cases hm : n.mask.bits = mask.bits
  · -- the node is there already, and holds no value
    have hn : n.key = key := by
      rw [← n.key_and_mask, ← hkey, hm, and_bits_eq_iff, ← bits_inj.1 hm]
      exact hlea.2
    have hva : n.value = none := by
      rcases hv : n.value with - | v
      · rfl
      · refine absurd ⟨hn, (bits_inj.1 hm).trans hlen⟩ (hnew p ⟨n.key, n.len, v⟩ ?_)
        rw [stored_of_linked hp, Node.entry, hv]
        rfl
    rw [if_pos hm, if_neg (by simp [hva]), ← hlen]
    exact ⟨_, _, rfl, inserted_here hinv hp hn (bits_inj.1 hm) hva⟩
  · have hlt : n.len < mask.len := lt_of_le_of_ne hlea.1 fun heq => hm (bits_inj.2 heq)
    rw [if_neg hm, ← hlen]
    rcases legs_spec hinv hp hlea hlt hkey hend with ⟨h, s', hrun, hins⟩ | ⟨hsk, h, s', hrun, hins⟩
    · rw [hrun, ok_bind]
      exact ⟨h, s', rfl, hins⟩
    · rw [hsk, ok_bind]
      rw [hrun, ok_bind]
      exact ⟨h, s', rfl, hins⟩

end Heap

end GuardianCouncil.Trie
