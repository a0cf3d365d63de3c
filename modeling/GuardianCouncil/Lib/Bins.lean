import Mathlib.Data.List.Nodup
import Mathlib.Order.Lattice

/-!
# A queue as a list of stacks

A priority queue in which equal elements are served last in, first out can be kept as a list of
*bins*: one for each key that occurs, in increasing order of the keys, each a stack of the elements
with that key.

For a list `live` of the elements, the most recent first, `Sorts key live bins` says that `bins` is
that list sorted into bins.  This determines the bins, is kept when an element enters (`Sorts.enter`)
or leaves (`Sorts.remove`), and the first element of the first bin is the most recent of the least
(`Sorts.find?_eq`).
-/

namespace Bins

open List

variable {α K : Type*}

/-- A stack that is not empty. -/
structure Bin (α : Type*) where
  /-- The most recent element. -/
  top : α
  /-- The others, the most recent first. -/
  rest : List α

def Bin.members (b : Bin α) : List α := b.top :: b.rest

/-- A stack as a list of bins: no bin at all if it is empty. -/
def ofStack : List α → List (Bin α)
  | [] => []
  | x :: l => [⟨x, l⟩]

/-- All elements, in the order in which they are served. -/
def flatten (bins : List (Bin α)) : List α := bins.flatMap Bin.members

theorem Bin.top_mem (b : Bin α) : b.top ∈ b.members := mem_cons_self

@[simp] theorem flatten_append (B C : List (Bin α)) : flatten (B ++ C) = flatten B ++ flatten C := flatMap_append

@[simp] theorem flatten_cons (b : Bin α) (B : List (Bin α)) : flatten (b :: B) = b.members ++ flatten B := flatMap_cons

@[simp] theorem flatten_ofStack (l : List α) : flatten (ofStack l) = l := by
  rcases l with - | ⟨x, l⟩
  · rfl
  · exact append_nil _

variable {bins : List (Bin α)} {b : Bin α}

theorem mem_flatten {x : α} : x ∈ flatten bins ↔ ∃ b ∈ bins, x ∈ b.members := mem_flatMap

theorem length_le_length_flatten (bins : List (Bin α)) : bins.length ≤ (flatten bins).length := by
  induction bins with
  | nil => exact le_refl 0
  | cons b bins ih =>
    rw [flatten_cons, length_append, Bin.members, length_cons, length_cons]
    omega

theorem length_members_le (hb : b ∈ bins) : b.members.length ≤ (flatten bins).length := by
  obtain ⟨B, C, rfl⟩ := append_of_mem hb
  rw [flatten_append, flatten_cons, length_append, length_append]
  omega

/-- Bins without a common element have different tops. -/
theorem top_ne_of_nodup {B C : List (Bin α)} (h : (flatten (B ++ b :: C)).Nodup) :
    (∀ c ∈ B, c.top ≠ b.top) ∧ ∀ c ∈ C, c.top ≠ b.top := by
  rw [flatten_append, flatten_cons] at h
  obtain ⟨-, hbC, hB⟩ := nodup_append.1 h
  refine ⟨fun c hc => ?_, fun c hc => ?_⟩
  · exact hB _ (mem_flatten.2 ⟨c, hc, c.top_mem⟩) _ (mem_append_left _ b.top_mem)
  · exact ((nodup_append.1 hbC).2.2 _ b.top_mem _ (mem_flatten.2 ⟨c, hc, c.top_mem⟩)).symm

variable [LinearOrder K]

/-- The elements `live`, the most recent first, sorted into bins. -/
structure Sorts (key : α → K) (live : List α) (bins : List (Bin α)) : Prop where
  /-- No element is in the queue twice. -/
  nodup : live.Nodup
  increasing : bins.Pairwise fun b c => key b.top < key c.top
  /-- A bin is the stack of the elements with its key. -/
  stack : ∀ b ∈ bins, b.members = live.filter fun x => key x = key b.top
  /-- Every element has a bin. -/
  content : ∀ x ∈ live, ∃ b ∈ bins, key b.top = key x

section

variable {key key' : α → K} {live : List α} {bins B C : List (Bin α)} {b : Bin α} {x : α}

section

variable (h : Sorts key live bins)
include h

theorem Sorts.mem_members (hb : b ∈ bins) : x ∈ b.members ↔ x ∈ live ∧ key x = key b.top := by
  rw [h.stack b hb, mem_filter, decide_eq_true_iff]

theorem Sorts.top_mem (hb : b ∈ bins) : b.top ∈ live :=
  ((h.mem_members hb).1 b.top_mem).1

/-- The bins hold the elements, -/
theorem Sorts.mem_flatten : x ∈ flatten bins ↔ x ∈ live := by
  rw [Bins.mem_flatten]
  constructor
  · rintro ⟨b, hb, hx⟩
    exact ((h.mem_members hb).1 hx).1
  · intro hx
    obtain ⟨b, hb, hkey⟩ := h.content x hx
    exact ⟨b, hb, (h.mem_members hb).2 ⟨hx, hkey.symm⟩⟩

/-- each of them once. -/
theorem Sorts.nodup_flatten : (flatten bins).Nodup := by
  refine nodup_flatMap.2 ⟨fun b hb => ?_, ?_⟩
  · rw [h.stack b hb]
    exact h.nodup.filter _
  · refine h.increasing.imp_of_mem fun {b c} hb hc hlt x hxb hxc => ?_
    rw [((h.mem_members hb).1 hxb).2.symm, ((h.mem_members hc).1 hxc).2] at hlt
    exact lt_irrefl _ hlt

theorem Sorts.length_flatten : (flatten bins).length = live.length :=
  ((perm_ext_iff_of_nodup h.nodup_flatten h.nodup).2 fun _ => h.mem_flatten).length_eq

/-- Keys of elements that are not in the queue may change. -/
theorem Sorts.rekey (hkey : ∀ x ∈ live, key' x = key x) : Sorts key' live bins where
  nodup := h.nodup
  increasing := by
    refine h.increasing.imp_of_mem fun {b c} hb hc hlt => ?_
    rwa [hkey _ (h.top_mem hb), hkey _ (h.top_mem hc)]
  stack := by
    intro b hb
    rw [h.stack b hb, hkey _ (h.top_mem hb)]
    exact filter_congr fun x hx => by rw [hkey x hx]
  content := by
    intro x hx
    obtain ⟨b, hb, hbx⟩ := h.content x hx
    exact ⟨b, hb, by rw [hkey _ (h.top_mem hb), hbx, hkey x hx]⟩

end

variable {c : Bin α}

section

variable (h : Sorts key live (B ++ b :: C))
include h

/-- The bins after a place are above everything up to that place. -/
theorem Sorts.above (hc : c ∈ C) : key b.top < key c.top :=
  (pairwise_cons.1 (pairwise_append.1 h.increasing).2.1).1 c hc

/-- The bins before a place are below it. -/
theorem Sorts.below (hc : c ∈ B) : key c.top < key b.top :=
  (pairwise_append.1 h.increasing).2.2 c hc b mem_cons_self

/-- Behind the bins below an element comes the bin of the element. -/
theorem Sorts.next_of_mem (hx : x ∈ live)
    (hB : ∀ c ∈ B ++ [b], key c.top < key x) (hC : ∀ c ∈ C.head?, key x ≤ key c.top) :
    ∃ c D, C = c :: D ∧ key c.top = key x := by
  obtain ⟨d, hd, hkey⟩ := h.content x hx
  rw [append_cons] at hd h
  have hdC : d ∈ C := by
    rcases mem_append.1 hd with hd | hd
    · exact absurd hkey (hB d hd).ne
    · exact hd
  rcases C with - | ⟨c, D⟩
  · exact absurd hdC not_mem_nil
  · refine ⟨c, D, rfl, le_antisymm ?_ (hC c rfl)⟩
    rcases mem_cons.1 hdC with rfl | hdD
    · exact hkey.le
    · exact ((h.above hdD).trans_eq hkey).le

end

end

/-! ## Entering -/

section

variable {key : α → K} {live : List α} {B C : List (Bin α)} {b c : Bin α} {x : α}

theorem filter_cons_of_ne {k : K} (hx : key x ≠ k) :
    (x :: live).filter (fun y => key y = k) = live.filter fun y => key y = k := by
  rw [filter_cons_of_neg (by simpa using hx)]

/-- An element whose key has no bin gets a bin of its own. -/
theorem Sorts.insert_new (h : Sorts key live (B ++ C)) (hx : x ∉ live)
    (hB : ∀ b ∈ B, key b.top < key x) (hC : ∀ c ∈ C, key x < key c.top) :
    Sorts key (x :: live) (B ++ ⟨x, []⟩ :: C) where
  nodup := nodup_cons.2 ⟨hx, h.nodup⟩
  increasing := by
    obtain ⟨hBs, hCs, hBC⟩ := pairwise_append.1 h.increasing
    refine pairwise_append.2 ⟨hBs, pairwise_cons.2 ⟨hC, hCs⟩, ?_⟩
    intro b hb c hc
    rcases mem_cons.1 hc with rfl | hc
    · exact hB b hb
    · exact hBC b hb c hc
  stack := by
    have hne : ∀ b ∈ B ++ C, key x ≠ key b.top := by
      intro b hb
      rcases mem_append.1 hb with hb | hb
      · exact (hB b hb).ne'
      · exact (hC b hb).ne
    have hold : ∀ b ∈ B ++ C, b.members = (x :: live).filter fun y => key y = key b.top :=
      fun b hb => by rw [filter_cons_of_ne (hne b hb), h.stack b hb]
    intro b hb
    rcases mem_append.1 hb with hb | hb
    · exact hold b (mem_append_left _ hb)
    rcases mem_cons.1 hb with rfl | hb
    · have hn : live.filter (fun y => key y = key x) = [] := by
        refine filter_eq_nil_iff.2 fun y hy => ?_
        obtain ⟨b, hb, hby⟩ := h.content y hy
        rw [decide_eq_true_iff, ← hby]
        exact (hne b hb).symm
      rw [filter_cons_of_pos (by simp), hn]
      rfl
    · exact hold b (mem_append_right _ hb)
  content := by
    intro y hy
    rcases mem_cons.1 hy with rfl | hy
    · exact ⟨⟨y, []⟩, by simp, rfl⟩
    · obtain ⟨b, hb, hby⟩ := h.content y hy
      exact ⟨b, by simp only [mem_append, mem_cons] at hb ⊢; tauto, hby⟩

/-- An element whose key has a bin becomes the top of it. -/
theorem Sorts.insert_top (h : Sorts key live (B ++ b :: C)) (hx : x ∉ live) (hb : key x = key b.top) :
    Sorts key (x :: live) (B ++ ⟨x, b.members⟩ :: C) where
  nodup := nodup_cons.2 ⟨hx, h.nodup⟩
  increasing := by
    obtain ⟨hBs, hCs, hBC⟩ := pairwise_append.1 h.increasing
    refine pairwise_append.2 ⟨hBs, pairwise_cons.2 ⟨?_, hCs.of_cons⟩, ?_⟩
    · intro c hc
      exact hb.trans_lt (h.above hc)
    · intro c hc d hd
      rcases mem_cons.1 hd with rfl | hd
      · exact (h.below hc).trans_eq hb.symm
      · exact hBC c hc d (mem_cons_of_mem b hd)
  stack := by
    intro c hc
    rcases mem_append.1 hc with hc | hc
    · rw [filter_cons_of_ne (by rw [hb]; exact (h.below hc).ne')]
      exact h.stack c (mem_append_left _ hc)
    rcases mem_cons.1 hc with rfl | hc
    · rw [filter_cons_of_pos (by simp), Bin.members]
      rw [h.stack b (by simp), hb]
    · rw [filter_cons_of_ne (by rw [hb]; exact (h.above hc).ne)]
      exact h.stack c (by simp [hc])
  content := by
    intro y hy
    rcases mem_cons.1 hy with rfl | hy
    · exact ⟨⟨y, b.members⟩, by simp, rfl⟩
    obtain ⟨c, hc, hcy⟩ := h.content y hy
    rcases mem_append.1 hc with hc | hc
    · exact ⟨c, mem_append_left _ hc, hcy⟩
    · rcases mem_cons.1 hc with rfl | hc
      · exact ⟨⟨x, c.members⟩, by simp, hb.trans hcy⟩
      · exact ⟨c, by simp [hc], hcy⟩

/-- The place of an element among bins that are not below it. -/
def enter (key : α → K) (x : α) : List (Bin α) → List (Bin α)
  | [] => [⟨x, []⟩]
  | c :: C => if key x < key c.top then ⟨x, []⟩ :: c :: C else ⟨x, c.members⟩ :: C

theorem top_of_mem_enter (hb : b ∈ enter key x C) : b.top = x ∨ b ∈ C := by
  rcases C with - | ⟨c, C⟩
  · rw [mem_singleton.1 hb]
    exact .inl rfl
  rw [enter] at hb
  split at hb <;> rcases mem_cons.1 hb with rfl | hb
  · exact .inl rfl
  · exact .inr hb
  · exact .inl rfl
  · exact .inr (mem_cons_of_mem c hb)

/-- **An element enters** behind the bins that are below it. -/
theorem Sorts.enter (h : Sorts key live (B ++ C)) (hx : x ∉ live)
    (hB : ∀ b ∈ B, key b.top < key x) (hC : ∀ c ∈ C.head?, key x ≤ key c.top) :
    Sorts key (x :: live) (B ++ enter key x C) := by
  rcases C with - | ⟨c, C⟩
  · exact h.insert_new hx hB (by simp)
  have hc : key x ≤ key c.top := hC c rfl
  rw [Bins.enter]
  split
  · rename_i hlt
    refine h.insert_new hx hB fun d hd => ?_
    rcases mem_cons.1 hd with rfl | hd
    · exact hlt
    · exact hlt.trans (h.above hd)
  · rename_i hnlt
    exact h.insert_top hx (hc.antisymm (not_lt.1 hnlt))

end

/-! ## Leaving -/

section

variable {key : α → K} {live : List α} {B C : List (Bin α)} {b : Bin α} {x : α}

/-- No element comes before those of the first bin. -/
theorem Sorts.top_le (h : Sorts key live (b :: C)) {y : α} (hy : y ∈ live) : key b.top ≤ key y := by
  obtain ⟨c, hc, hcy⟩ := h.content y hy
  rw [← hcy]
  rcases mem_cons.1 hc with rfl | hc
  · exact le_rfl
  · exact ((pairwise_cons.1 h.increasing).1 c hc).le

/-- The first element of the first bin is the most recent of those with the least key. -/
theorem Sorts.find?_eq (h : Sorts key live (b :: C)) :
    live.find? (fun x => live.all fun y => key x ≤ key y) = some b.top := by
  have htop : b.top ∈ live := h.top_mem mem_cons_self
  have hf : live.filter (fun x => live.all fun y => key x ≤ key y)
      = live.filter fun x => key x = key b.top := by
    refine filter_congr fun x hx => ?_
    rw [Bool.eq_iff_iff, all_eq_true, decide_eq_true_iff]
    constructor
    · intro hle
      exact le_antisymm (by simpa using hle b.top htop) (h.top_le hx)
    · intro heq y hy
      simpa [heq] using h.top_le hy
  rw [← head?_filter, hf, ← h.stack b mem_cons_self]
  rfl

variable [DecidableEq α]

variable {c : Bin α}

/-- What is left of a bin keeps its key. -/
theorem Sorts.ofStack_erase (h : Sorts key live (B ++ b :: C)) (hc : c ∈ ofStack (b.members.erase x)) :
    c.members = b.members.erase x ∧ key c.top = key b.top := by
  rcases hl : b.members.erase x with - | ⟨y, l⟩
  · rw [hl] at hc
    exact absurd hc not_mem_nil
  · rw [hl] at hc
    cases mem_singleton.1 hc
    have hy : y ∈ b.members := mem_of_mem_erase (hl ▸ mem_cons_self)
    exact ⟨rfl, ((h.mem_members (by simp)).1 hy).2⟩

theorem Sorts.filter_erase (h : Sorts key live B) (x : α) (k : K) :
    (live.erase x).filter (fun y => key y = k) = (live.filter fun y => key y = k).erase x := by
  rw [h.nodup.erase_eq_filter, (h.nodup.filter _).erase_eq_filter, filter_comm]

section

variable (h : Sorts key live (B ++ b :: C))
include h

/-- The bins that are left increase. -/
theorem Sorts.increasing_erase : (B ++ ofStack (b.members.erase x) ++ C).Pairwise fun c d => key c.top < key d.top := by
  obtain ⟨hB, hC, hBC⟩ := pairwise_append.1 h.increasing
  rw [append_assoc]
  refine pairwise_append.2 ⟨hB, pairwise_append.2 ⟨?_, hC.of_cons, ?_⟩, ?_⟩
  · rcases b.members.erase x with - | ⟨y, l⟩
    · exact List.Pairwise.nil
    · exact pairwise_singleton _ _
  · intro c hc d hd
    rw [(h.ofStack_erase hc).2]
    exact h.above hd
  · intro c hc d hd
    rcases mem_append.1 hd with hd | hd
    · rw [(h.ofStack_erase hd).2]
      exact h.below hc
    · exact hBC c hc d (mem_cons_of_mem b hd)

/-- The bins that are left are stacks. -/
theorem Sorts.stack_erase (hx : x ∈ b.members) (hc : c ∈ B ++ ofStack (b.members.erase x) ++ C) :
    c.members = (live.erase x).filter fun y => key y = key c.top := by
  have hb : b ∈ B ++ b :: C := by simp
  rw [h.filter_erase]
  have hca : c ∈ ofStack (b.members.erase x) ∨ (c ∈ B ∨ c ∈ C) := by
    simp only [mem_append] at hc
    tauto
  rcases hca with hc | hc
  · rw [(h.ofStack_erase hc).2, ← h.stack b hb, (h.ofStack_erase hc).1]
  -- another bin, which the element is not in
  have ho : c ∈ B ++ b :: C ∧ key c.top ≠ key b.top := by
    rcases hc with hc | hc
    · exact ⟨by simp [hc], (h.below hc).ne⟩
    · exact ⟨by simp [hc], (h.above hc).ne'⟩
  rw [← h.stack c ho.1, erase_of_not_mem]
  intro hxc
  have hkey := ((h.mem_members ho.1).1 hxc).2
  exact ho.2 (hkey.symm.trans ((h.mem_members hb).1 hx).2)

/-- **An element leaves** its bin, and an empty bin leaves the list. -/
theorem Sorts.remove (hx : x ∈ b.members) : Sorts key (live.erase x) (B ++ ofStack (b.members.erase x) ++ C) where
  nodup := h.nodup.erase x
  increasing := h.increasing_erase
  stack := fun _ hc => h.stack_erase hx hc
  content := by
    intro y hy
    obtain ⟨hyx, hyl⟩ := h.nodup.mem_erase_iff.1 hy
    obtain ⟨c, hc, hcy⟩ := h.content y hyl
    rcases mem_append.1 hc with hcB | hc
    · exact ⟨c, by simp [hcB], hcy⟩
    rcases mem_cons.1 hc with rfl | hcC
    · -- the bin is still there, since it still holds `y`
      have hy' : y ∈ flatten (ofStack (c.members.erase x)) := by
        rw [flatten_ofStack]
        exact (mem_erase_of_ne hyx).2 ((h.mem_members (by simp)).2 ⟨hyl, hcy.symm⟩)
      obtain ⟨d, hd, -⟩ := Bins.mem_flatten.1 hy'
      exact ⟨d, by simp [hd], (h.ofStack_erase hd).2.trans hcy⟩
    · exact ⟨c, by simp [hcC], hcy⟩

/-- The others keep their order. -/
theorem Sorts.flatten_remove (hx : x ∈ b.members) :
    flatten (B ++ ofStack (b.members.erase x) ++ C) = (flatten (B ++ b :: C)).erase x := by
  have hxB : x ∉ flatten B := by
    have hn := h.nodup_flatten
    rw [flatten_append] at hn
    intro hxB
    exact (nodup_append.1 hn).2.2 x hxB x (by simp [hx]) rfl
  rw [flatten_append, flatten_append, flatten_append, flatten_ofStack, flatten_cons,
    erase_append_right _ hxB, erase_append_left _ hx, append_assoc]

end

end

end Bins
