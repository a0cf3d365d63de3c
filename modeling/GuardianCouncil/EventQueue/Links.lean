import GuardianCouncil.Lib.Bins
import GuardianCouncil.Lib.Linked
import GuardianCouncil.EventQueue.Queue

/-!
# What the pointers of the event queue lead to

`st.Leads p bins` says that the pointer `p` leads to `bins`: the events on top of the bins are
linked by `nextBin`, and the events of each bin by `nextInBin`.  It says nothing about the `nextBin`
of an event further down, which is where stale pointers may stand, and yet it determines the bins
(`Leads.unique`).

Each of the pointer manipulations has one lemma here, in terms of the bins alone.  Whatever happens
from some place on, the bins before it stay and are linked to the result (`Leads.relink`).
-/

namespace GuardianCouncil.EventQueue

open Bins Linked Function

open List hiding mem_flatten flatten_append flatten_cons

universe u

variable {ι : Type u} {st st' : State ι} {p q : Option ι} {event : ι} {b : Bin ι}
  {bins B C D : List (Bin ι)} {n : Nat}

/-- The pointer `p` leads to the bins. -/
structure State.Leads (st : State ι) (p : Option ι) (bins : List (Bin ι)) : Prop where
  tops : Points st.nextBin p (bins.map Bin.top)
  /-- The members of a bin are linked by `nextInBin`. -/
  members : ∀ b ∈ bins, Points st.nextInBin (some b.top) b.members

theorem State.Leads.tail (h : st.Leads p (b :: C)) : st.Leads (st.nextBin b.top) C :=
  ⟨h.tops.2, fun c hc => h.members c (mem_cons_of_mem b hc)⟩

/-- Only the `nextBin` of the tops and the `nextInBin` of the members matter. -/
theorem State.Leads.congr (h : st.Leads p bins) (hto : ∀ b ∈ bins, st'.nextBin b.top = st.nextBin b.top)
    (hm : ∀ x ∈ flatten bins, st'.nextInBin x = st.nextInBin x) : st'.Leads p bins where
  tops := h.tops.congr fun x hx => by
    obtain ⟨b, hb, rfl⟩ := mem_map.1 hx
    exact hto b hb
  members := fun b hb =>
    (h.members b hb).congr fun x hx => hm x (mem_flatten.2 ⟨b, hb, hx⟩)

/-- What the bins after a place start with. -/
theorem State.Leads.drop (h : st.Leads p (B ++ b :: C)) : st.Leads (st.nextBin b.top) C where
  tops := by
    have hto := h.tops
    rw [map_append, map_cons] at hto
    exact hto.drop
  members := fun c hc => h.members c (by simp [hc])

/-- **`findBin`** goes as far as the bins are before the event. -/
theorem State.findBin_eq (h : st.Leads p (b :: C)) (hb : st.key b.top < st.key event) (hn : C.length < n) :
    ∃ B c D, b :: C = B ++ c :: D ∧ st.findBin event n b.top (st.nextBin b.top) = .ok (c.top, (D.map Bin.top).head?) ∧
      (∀ d ∈ B ++ [c], st.key d.top < st.key event) ∧
      ∀ d ∈ D.head?, st.key event ≤ st.key d.top := by
  induction C generalizing b n p with
  | nil =>
    obtain ⟨m, rfl⟩ : ∃ m, n = m + 1 := ⟨n - 1, by omega⟩
    refine ⟨[], b, [], rfl, ?_, by simpa using hb, by simp⟩
    rw [show st.nextBin b.top = none from h.tops.2]
    rfl
  | cons c C ih =>
    obtain ⟨m, rfl⟩ : ∃ m, n = m + 1 := ⟨n - 1, by omega⟩
    rw [show st.nextBin b.top = some c.top from h.tops.2.1, findBin]
    by_cases hc : st.key c.top < st.key event
    · have hm : C.length < m := by
        rw [length_cons] at hn
        omega
      obtain ⟨B, d, D, hsp, hf, hbe, ha⟩ := ih h.tail hc hm
      refine ⟨b :: B, d, D, by rw [hsp, cons_append], ?_, ?_, ha⟩
      · rw [if_pos (Key.before_iff.2 hc), hf]
      · exact forall_mem_cons.2 ⟨hb, hbe⟩
    · refine ⟨[], b, c :: C, rfl, ?_, by simpa using hb, by simpa using hc⟩
      rw [if_neg (by simpa using hc)]
      rfl

variable [DecidableEq ι]

/-- **Relinking.**  Some bins are changed, those up to `b` are not, and then `b` is linked to the
changed ones. -/
theorem State.Leads.relink (h : st.Leads p (B ++ b :: C)) (hD : st'.Leads q D)
    (hto : ∀ c ∈ B, st'.nextBin c.top = st.nextBin c.top)
    (hm : ∀ x ∈ flatten (B ++ [b]), st'.nextInBin x = st.nextInBin x)
    (hB : ∀ c ∈ B, c.top ≠ b.top) (hDb : ∀ d ∈ D, d.top ≠ b.top) :
    State.Leads { st' with nextBin := update st'.nextBin b.top q } p (B ++ b :: D) where
  tops := by
    have ht' := h.tops
    rw [map_append, map_cons] at ht' ⊢
    refine ht'.splice (fun x hx => ?_) (update_self ..) (hD.tops.congr fun x hx => ?_)
    · obtain ⟨c, hc, rfl⟩ := mem_map.1 hx
      exact (update_of_ne (hB c hc) _ _).trans (hto c hc)
    · obtain ⟨d, hd, rfl⟩ := mem_map.1 hx
      exact update_of_ne (hDb d hd) _ _
  members := by
    intro c hc
    rw [append_cons] at hc
    rcases mem_append.1 hc with hc | hc
    · refine (h.members c ?_).congr fun x hx => hm x (mem_flatten.2 ⟨c, hc, hx⟩)
      rw [append_cons]
      exact mem_append_left _ hc
    · exact hD.members c hc

/-! ## Inserting -/

theorem State.insertBefore_eq (st : State ι) (event : ι) (curr : Option ι) : st.insertBefore event curr = { st with
      nextBin := (st.insertBefore event curr).nextBin
      nextInBin := (st.insertBefore event curr).nextInBin } := by
  rcases curr with - | c
  · rfl
  · rw [insertBefore]
    split <;> rfl

theorem State.insertBefore_head (st : State ι) (event : ι) (curr : Option ι) :
    (st.insertBefore event curr).head = st.head := by
  rw [st.insertBefore_eq event curr]

theorem State.insertBefore_nextBin_of_ne {x : ι} (hx : x ≠ event) (curr : Option ι) :
    (st.insertBefore event curr).nextBin x = st.nextBin x := by
  rcases curr with - | c
  · simp [insertBefore, hx]
  · rw [insertBefore]
    split <;> simp [hx]

theorem State.insertBefore_nextInBin_of_ne {x : ι} (hx : x ≠ event) (curr : Option ι) :
    (st.insertBefore event curr).nextInBin x = st.nextInBin x := by
  rcases curr with - | c
  · simp [insertBefore, hx]
  · rw [insertBefore]
    split <;> simp [hx]

/-- **`insertBefore`** enters the event into the bins that `curr` leads to. -/
theorem State.insertBefore_leads (h : st.Leads p D) (hnew : event ∉ flatten D) :
    (st.insertBefore event p).Leads (some event) (enter st.key event D) := by
  -- the bins that were there are still there
  have hold : ∀ {q : Option ι} {E : List (Bin ι)}, st.Leads q E → E ⊆ D → (st.insertBefore event p).Leads q E := by
    intro q E hE hsub
    have hne : ∀ b ∈ E, ∀ x ∈ b.members, x ≠ event := fun b hb x hx =>
      ne_of_mem_of_not_mem (mem_flatten.2 ⟨b, hsub hb, hx⟩) hnew
    refine hE.congr (fun b hb => insertBefore_nextBin_of_ne (hne b hb _ b.top_mem) p) ?_
    intro x hx
    obtain ⟨b, hb, hx⟩ := mem_flatten.1 hx
    exact insertBefore_nextInBin_of_ne (hne b hb x hx) p
  rcases D with - | ⟨d, D⟩
  · obtain rfl : p = none := h.tops
    refine ⟨?_, ?_⟩ <;> simp [insertBefore, enter, Bin.members]
  obtain rfl : p = some d.top := h.tops.1
  rw [enter]
  by_cases hlt : st.key event < st.key d.top
  · -- a bin of its own
    rw [if_pos hlt]
    have hre := hold h (.refl _)
    refine ⟨⟨rfl, ?_⟩, forall_mem_cons.2 ⟨⟨rfl, ?_⟩, hre.members⟩⟩
    · rw [show (st.insertBefore event (some d.top)).nextBin event = some d.top by
        simp [insertBefore, hlt]]
      exact hre.tops
    · simp [insertBefore, hlt]
  · -- on top of the bin that is there
    rw [if_neg hlt]
    have hre := hold h.tail (subset_cons_self d D)
    have hd := (hold h (.refl _)).members d mem_cons_self
    refine ⟨⟨rfl, ?_⟩, forall_mem_cons.2 ⟨⟨rfl, ?_⟩, hre.members⟩⟩
    · rw [show (st.insertBefore event (some d.top)).nextBin event = st.nextBin d.top by
        simp [insertBefore, hlt]]
      exact hre.tops
    · rw [show (st.insertBefore event (some d.top)).nextInBin event = some d.top by
        simp [insertBefore, hlt]]
      exact hd

/-- Inserting behind the bin `b`. -/
theorem State.insertBefore_relink (h : st.Leads p (B ++ b :: D))
    (hn : (flatten (B ++ b :: D)).Nodup) (hnew : event ∉ flatten (B ++ b :: D)) :
    State.Leads { st.insertBefore event (st.nextBin b.top) with
      nextBin := update (st.insertBefore event (st.nextBin b.top)).nextBin b.top
        (some event) } p (B ++ b :: enter st.key event D) := by
  have hne : ∀ x ∈ flatten (B ++ [b]), x ≠ event := by
    intro x hx
    refine ne_of_mem_of_not_mem (?_ : x ∈ flatten (B ++ b :: D)) hnew
    rw [append_cons, flatten_append]
    exact mem_append_left _ hx
  have htop : ∀ d ∈ B ++ [b], d.top ≠ event := fun d hd =>
    hne d.top (mem_flatten.2 ⟨d, hd, d.top_mem⟩)
  have hnewD : event ∉ flatten D := fun hD => hnew (by simp [hD])
  obtain ⟨hB, hD⟩ := top_ne_of_nodup hn
  refine h.relink (insertBefore_leads h.drop hnewD) (fun d hd => insertBefore_nextBin_of_ne (htop d (by simp [hd])) _)
    (fun x hx => insertBefore_nextInBin_of_ne (hne x hx) _) hB fun d hd => ?_
  rcases top_of_mem_enter hd with hd | hd
  · rw [hd]
    exact (htop b (by simp)).symm
  · exact hD d hd

/-- **`insert`** enters the event behind the bins that come before it. -/
theorem State.insert_leads (h : st.Leads st.head bins) (hno : (flatten bins).Nodup)
    (hnew : event ∉ flatten bins) (hn : bins.length ≤ n) :
    ∃ B D st', bins = B ++ D ∧ st.insert n event = .ok st' ∧ st'.Leads st'.head (B ++ enter st.key event D) ∧
      (∀ b ∈ B, st.key b.top < st.key event) ∧ (∀ d ∈ D.head?, st.key event ≤ st.key d.top) ∧
      st' = { st with head := st'.head, nextBin := st'.nextBin, nextInBin := st'.nextInBin } := by
  have hf := insertBefore_leads h hnew
  have hke := st.insertBefore_eq event st.head
  rw [insert]
  rcases bins with - | ⟨b, C⟩
  · -- the queue is empty
    rw [show st.head = none from h.tops] at hf hke ⊢
    refine ⟨[], [], _, rfl, rfl, ⟨hf.tops, hf.members⟩, by simp, by simp, ?_⟩
    rw [hke]
  · have hh : st.head = some b.top := h.tops.1
    rw [hh] at hf hke ⊢
    dsimp only
    by_cases hle : st.key event ≤ st.key b.top
    · -- the event comes first
      rw [if_pos (Key.notAfter_iff.2 hle)]
      refine ⟨[], b :: C, _, rfl, rfl, ⟨hf.tops, hf.members⟩, by simp, by simpa using hle, ?_⟩
      rw [hke]
    · rw [if_neg (by simpa using hle)]
      obtain ⟨B, c, D, hsp, hfi, hbe, ha⟩ := findBin_eq h (not_le.1 hle) (Nat.lt_of_succ_le hn)
      rw [hsp] at h hno hnew
      rw [hfi, Fallible.ok_bind]
      dsimp only
      rw [h.drop.tops.head?_eq]
      refine ⟨B ++ [c], D, _, by rw [hsp, append_cons], rfl, ?_, hbe, ha, ?_⟩
      · have hm := insertBefore_relink h hno hnew
        rw [← st.insertBefore_head event (st.nextBin c.top)] at hm
        rw [← append_cons]
        exact hm
      · rw [st.insertBefore_eq event (st.nextBin c.top)]

/-! ## Removing -/

/-- `findInBin` finds the event above the one looked for. -/
theorem State.findInBin_eq {c : ι} {l : List ι} (h : Points st.nextInBin (st.nextInBin c) l)
    (hc : event ≠ c) (hl : event ∈ l) (hn : l.length < n + 1) :
    ∃ l₁ d l₂, c :: l = l₁ ++ d :: event :: l₂ ∧ event ∉ l₁ ++ [d] ∧
      st.findInBin event n c (st.nextInBin c) = .ok d := by
  induction l generalizing c n with
  | nil => exact absurd hl not_mem_nil
  | cons x l ih =>
    obtain ⟨m, rfl⟩ : ∃ m, n = m + 1 := ⟨n - 1, by rw [length_cons] at hn; omega⟩
    rw [h.1, findInBin]
    by_cases hx : event = x
    · subst hx
      exact ⟨[], c, l, rfl, by simpa using hc, if_pos rfl⟩
    have hlm : l.length < m + 1 := by
      rw [length_cons] at hn
      omega
    obtain ⟨l₁, d, l₂, hsp, hnew, hf⟩ := ih h.2 hx ((mem_cons.1 hl).resolve_left hx) hlm
    refine ⟨c :: l₁, d, l₂, by rw [hsp, cons_append], ?_, ?_⟩
    · exact not_mem_cons_of_ne_of_not_mem hc hnew
    · rw [if_neg (by simpa using Ne.symm hx)]
      exact hf

/-- Taking the top off a bin. -/
theorem State.removeItem_top (h : st.Leads p (b :: C)) (hn : (flatten (b :: C)).Nodup) :
    ∃ q st', st.removeItem n b.top b.top = .ok (q, st') ∧ st'.Leads q (ofStack (b.members.erase b.top) ++ C) ∧
      (∀ x, x ∉ b.members → st'.nextBin x = st.nextBin x) ∧
      st' = { st with nextBin := st'.nextBin } := by
  have hbin := (h.members b mem_cons_self).2
  have hera : b.members.erase b.top = b.rest := erase_cons_head ..
  rw [removeItem, if_pos rfl, hera]
  rcases hre : b.rest with - | ⟨x, l⟩
  · -- the bin is gone
    rw [hre] at hbin
    rw [show st.nextInBin b.top = none from hbin]
    exact ⟨_, st, rfl, h.tail, fun _ _ => rfl, rfl⟩
  · -- the next one gets the link to the bins after it
    rw [hre] at hbin
    rw [show st.nextInBin b.top = some x from hbin.1]
    have hx : x ∈ b.members := by simp [Bin.members, hre]
    have hxC : ∀ c ∈ C, c.top ≠ x := by
      rintro c hc rfl
      exact (nodup_append.1 hn).2.2 _ hx _ (mem_flatten.2 ⟨c, hc, c.top_mem⟩) rfl
    refine ⟨_, _, rfl, ⟨⟨rfl, ?_⟩, ?_⟩, ?_, rfl⟩
    · show Points (update st.nextBin x (st.nextBin b.top)) (update st.nextBin x (st.nextBin b.top) x) (C.map Bin.top)
      rw [update_self]
      refine h.tail.tops.congr fun y hy => ?_
      obtain ⟨c, hc, rfl⟩ := mem_map.1 hy
      exact update_of_ne (hxC c hc) _ _
    · refine forall_mem_cons.2 ⟨?_, fun c hc => h.tail.members c hc⟩
      rw [← hbin.1]
      exact hbin
    · intro y hy
      exact update_of_ne (ne_of_mem_of_not_mem hx hy).symm _ _

/-- **`removeItem`** takes the event out of its bin, and the bin out of the list if it was the only
one there. -/
theorem State.removeItem_leads (h : st.Leads p (b :: C)) (hno : (flatten (b :: C)).Nodup)
    (hev : event ∈ b.members) (hn : b.members.length ≤ n) :
    ∃ q st', st.removeItem n event b.top = .ok (q, st') ∧ st'.Leads q (ofStack (b.members.erase event) ++ C) ∧
      (∀ x, x ∉ b.members → st'.nextBin x = st.nextBin x) ∧
      (∀ x, x ∉ b.members → st'.nextInBin x = st.nextInBin x) ∧
      st' = { st with nextBin := st'.nextBin, nextInBin := st'.nextInBin } := by
  by_cases htop : event = b.top
  · subst htop
    obtain ⟨q, st', hst', hlea, hnext, heq⟩ := removeItem_top (n := n) h hno
    refine ⟨q, st', hst', hlea, hnext, ?_, ?_⟩
    · intro x _
      rw [heq]
    · rw [heq]
  · have hbin := h.members b mem_cons_self
    have hre : event ∈ b.rest := (mem_cons.1 hev).resolve_left htop
    rw [flatten_cons] at hno
    obtain ⟨hb, -, hbC⟩ := nodup_append.1 hno
    have hlen : b.rest.length < n + 1 := by
      rw [Bin.members, length_cons] at hn
      omega
    obtain ⟨l₁, d, l₂, hsp, hnew, hf⟩ := findInBin_eq hbin.2 htop hre hlen
    have hm : b.members = l₁ ++ d :: event :: l₂ := hsp
    have hd : d ∈ b.members := by simp [hm]
    have ho : ∀ x, x ∉ b.members → update st.nextInBin d (st.nextInBin event) x = st.nextInBin x :=
      fun x hx => update_of_ne (ne_of_mem_of_not_mem hd hx).symm _ _
    -- the top stays, and the list below it lacks the event
    have hera : b.members.erase event = l₁ ++ d :: l₂ := by
      rw [hm, append_cons, erase_append_right _ hnew, erase_cons_head, ← append_cons]
    have hst : b.members.erase event = b.top :: b.rest.erase event := by
      rw [Bin.members, erase_cons_tail (by simpa using Ne.symm htop)]
    have hby : Points (update st.nextInBin d (st.nextInBin event)) (some b.top)
        (b.top :: b.rest.erase event) := by
      rw [← hst, hera]
      rw [hm] at hbin hb
      exact hbin.bypass hb
    rw [removeItem, if_neg htop, hf, Fallible.ok_bind, hst]
    refine ⟨_, _, rfl, ⟨⟨rfl, h.tops.2⟩, ?_⟩, fun _ _ => rfl, ho, rfl⟩
    refine forall_mem_cons.2 ⟨hby, fun c hc => ?_⟩
    refine (h.members c (mem_cons_of_mem b hc)).congr fun x hx => ho x fun hxb => ?_
    exact hbC x hxb x (mem_flatten.2 ⟨c, hc, hx⟩) rfl

/-- Removing from the bin behind `b`. -/
theorem State.removeItem_relink {d : Bin ι} (h : st.Leads p (B ++ b :: d :: D))
    (hno : (flatten (B ++ b :: d :: D)).Nodup) (hev : event ∈ d.members) (hn : d.members.length ≤ n) :
    ∃ q st', st.removeItem n event d.top = .ok (q, st') ∧
      State.Leads { st' with nextBin := update st'.nextBin b.top q } p
        (B ++ b :: (ofStack (d.members.erase event) ++ D)) ∧
      st' = { st with nextBin := st'.nextBin, nextInBin := st'.nextInBin } := by
  obtain ⟨hB, -⟩ := top_ne_of_nodup hno
  rw [append_cons, flatten_append] at hno
  obtain ⟨-, hdD, hd⟩ := nodup_append.1 hno
  obtain ⟨q, st', hst', hlea, hnext, hin, heq⟩ := removeItem_leads h.drop hdD hev hn
  have hout : ∀ x ∈ flatten (B ++ [b]), x ∉ d.members := fun x hx hxd =>
    hd x hx x (by simp [hxd]) rfl
  refine ⟨q, st', hst', h.relink hlea (fun c hc => ?_) (fun x hx => hin x (hout x hx)) hB ?_, heq⟩
  · exact hnext _ (hout _ (mem_flatten.2 ⟨c, by simp [hc], c.top_mem⟩))
  · -- what is left was there before
    intro c hc hcb
    have hmem : c.top ∈ flatten (ofStack (d.members.erase event) ++ D) := mem_flatten.2 ⟨c, hc, c.top_mem⟩
    rw [flatten_append, flatten_ofStack] at hmem
    refine hd b.top (by simp [b.top_mem]) c.top ?_ hcb.symm
    rw [flatten_cons, mem_append]
    exact (mem_append.1 hmem).imp_left mem_of_mem_erase

/-- **`remove`** finds the event and takes it out. -/
theorem State.remove_leads {live : List ι} (h : st.Leads st.head bins)
    (hs : Sorts st.key live bins) (hev : event ∈ live) (hqu : st.queue event = true) (hn : live.length ≤ n) :
    ∃ B b C st', bins = B ++ b :: C ∧ event ∈ b.members ∧ st.remove n event = .ok st' ∧
      st'.Leads st'.head (B ++ ofStack (b.members.erase event) ++ C) ∧
      st' = { st with head := st'.head, nextBin := st'.nextBin, nextInBin := st'.nextInBin } := by
  have hlen : ∀ b ∈ bins, b.members.length ≤ n := fun b hb =>
    (length_members_le hb).trans (hs.length_flatten.trans_le hn)
  have hbi : bins.length ≤ n := (length_le_length_flatten bins).trans (hs.length_flatten.trans_le hn)
  have hno := hs.nodup_flatten
  rw [remove]
  rcases bins with - | ⟨b, C⟩
  · obtain ⟨b, hb, -⟩ := hs.content event hev
    exact absurd hb not_mem_nil
  rw [show st.head = some b.top from h.tops.1]
  dsimp only
  rw [if_neg (by simp [hqu])]
  by_cases hkey : st.key b.top = st.key event
  · -- the event is in the first bin
    rw [if_pos (Key.same_iff.2 hkey)]
    have hmem : event ∈ b.members := (hs.mem_members mem_cons_self).2 ⟨hev, hkey.symm⟩
    obtain ⟨q, st', hst', hlea, -, -, heq⟩ := removeItem_leads h hno hmem (hlen b mem_cons_self)
    rw [hst', Fallible.ok_bind]
    refine ⟨[], b, C, _, rfl, hmem, rfl, ⟨hlea.tops, hlea.members⟩, ?_⟩
    rw [heq]
  · rw [if_neg (by simpa using hkey)]
    have hf : st.key b.top < st.key event := by
      obtain ⟨c, hc, hce⟩ := hs.content event hev
      rcases mem_cons.1 hc with rfl | hc
      · exact absurd hce hkey
      · exact ((pairwise_cons.1 hs.increasing).1 c hc).trans_eq hce
    obtain ⟨B, c, D, hsp, hfi, hbe, ha⟩ := findBin_eq h hf (Nat.lt_of_succ_le hbi)
    rw [hsp] at h hs hno hlen
    obtain ⟨d, E, rfl, hd⟩ := hs.next_of_mem hev hbe ha
    have hmem : event ∈ d.members := (hs.mem_members (by simp)).2 ⟨hev, hd.symm⟩
    obtain ⟨q, st', hst', hlea, heq⟩ := removeItem_relink h hno hmem (hlen d (by simp))
    rw [hfi, Fallible.ok_bind, map_cons, head?_cons]
    dsimp only
    rw [if_neg (by simpa using hd), hst', Fallible.ok_bind]
    refine ⟨B ++ [c], d, E, _, by rw [hsp, append_cons], hmem, rfl, ?_, ?_⟩
    · rw [append_assoc, ← append_cons]
      rw [heq] at hlea ⊢
      exact hlea
    · rw [heq]

/-- **`serviceOne`** takes the top off the first bin. -/
theorem State.unlinkHead_leads (h : st.Leads st.head (b :: C)) (hn : (flatten (b :: C)).Nodup) :
    ∃ st', st.unlinkHead b.top = st' ∧ st'.Leads st'.head (ofStack (b.members.erase b.top) ++ C) ∧
      st' = { st with head := st'.head, nextBin := st'.nextBin } := by
  obtain ⟨q, st', hst', hlea, -, heq⟩ := removeItem_top (n := 0) h hn
  have hun : st.unlinkHead b.top = { st' with head := q } := by
    rw [removeItem, if_pos rfl] at hst'
    rw [unlinkHead]
    rcases hnext : st.nextInBin b.top with - | x <;>
    · rw [hnext] at hst'
      cases hst'
      rfl
  refine ⟨_, hun, ⟨hlea.tops, hlea.members⟩, ?_⟩
  rw [heq]

end GuardianCouncil.EventQueue
