import GuardianCouncil.AddrRange.Range
import GuardianCouncil.Lib.Fallible
import GuardianCouncil.Lib.SortedMap

/-!
# Looking up an address

`AddrRangeMap::find` searches the tree for the address as a one-byte range, whose match value is 0, and
looks at the ranges in front of the place where that would stand: at the last of them and, if it is
interleaved, at those before it for as long as they belong to the same chunk.

A range that contains the address may not be among them.  The members of a chunk that starts at the
very address come *after* it in the order, unless their match value is 0; and a plain range, or one of
another chunk, ends the search (`not_found_at_start`).  `Visible` says when neither is the case.
-/

namespace GuardianCouncil.AddrRanges

open Fallible SortedMap List AddrRange

variable {V : Type}

abbrev Entry (V : Type) := AddrRange × V

/-- The order of the tree. -/
def before (e e' : Entry V) : Bool := e.1.lt e'.1

/-! ## The search -/

/-- Stepping back, from `i` through the entries in front of it, while they belong to the chunk of
`orig`; the last one is looked at again. -/
def stepBack (orig r : AddrRange) : Entry V → List (Entry V) → Except Fault (Option (Entry V))
  | i, [] => do
    if ← i.1.intersects r then .ok (some i) else .ok none
  | i, j :: rest =>
    if i.1.mergesWith orig then do
      if ← j.1.intersects r then .ok (some j) else stepBack orig r j rest
    else do
      if ← i.1.intersects r then .ok (some i) else .ok none

/-- The entries in front of the upper bound of `r`, last first. -/
def upTo (r : AddrRange) (tree : List (Entry V)) : List (Entry V) :=
  (below (fun e => r.lt e.1) tree).reverse

/-- `find(const AddrRange &r)`. -/
def findRange (tree : List (Entry V)) (r : AddrRange) : Except Fault (Option (Entry V)) :=
  match upTo r tree with
  | [] =>
    match tree.head? with
    | none => .ok none
    | some i => do
      if ← i.1.intersects r then .ok (some i) else .ok none
  | i :: rest => do
    if ← i.1.intersects r then .ok (some i)
    else if i.1.interleaved then stepBack i.1 r i rest
    else .ok none

/-- `find(const Addr &r)`. -/
def find (tree : List (Entry V)) (a : Addr) : Except Fault (Option (Entry V)) :=
  findRange tree (.ofAddr a)

/-- `insert`, which fails when it returns `end()`.  The tree keeps its entry for a key that it has. -/
def insert (tree : List (Entry V)) (e : Entry V) : Except Fault (List (Entry V)) := do
  match ← findRange tree e.1 with
  | some _ => .error .notInserted
  | none => .ok (SortedMap.insert before e tree)

/-! ## What the search looks at -/

section

variable {tree : List (Entry V)} {a : Addr} {e i : Entry V}

/-- Stepping back finds the first entry with the address, if all entries on the way to it belong to the
chunk. -/
theorem stepBack_eq (orig : AddrRange) (hi : i.1.contains a = false) (rest : List (Entry V)) :
    ∃ x, stepBack orig (.ofAddr a) i rest = .ok x ∧ ∀ e, x = some e ↔
      ∃ mid tail, rest = mid ++ e :: tail ∧ e.1.contains a = true ∧
        (∀ f ∈ mid, f.1.contains a = false) ∧ ∀ f ∈ i :: mid, f.1.mergesWith orig = true := by
  induction rest generalizing i with
  | nil =>
    refine ⟨none, by simp [stepBack, intersects_ofAddr, hi], fun e => ?_⟩
    simp
  | cons j rest ih =>
    by_cases hm : i.1.mergesWith orig = true
    · rcases hj : j.1.contains a with - | -
      · obtain ⟨x, hx, hsp⟩ := ih hj
        refine ⟨x, by simp [stepBack, hm, intersects_ofAddr, hj, hx], fun e => ?_⟩
        rw [hsp]
        constructor
        · rintro ⟨mid, tail, rfl, hco, hmid, hall⟩
          refine ⟨j :: mid, tail, rfl, hco, ?_, ?_⟩
          · exact forall_mem_cons.2 ⟨hj, hmid⟩
          · exact forall_mem_cons.2 ⟨hm, hall⟩
        · rintro ⟨mid, tail, hre, hco, hmid, hall⟩
          rcases mid with - | ⟨j', mid⟩
          · cases hre
            rw [hj] at hco
            cases hco
          · cases hre
            exact ⟨mid, tail, rfl, hco, (forall_mem_cons.1 hmid).2, (forall_mem_cons.1 hall).2⟩
      · refine ⟨some j, by simp [stepBack, hm, intersects_ofAddr, hj], fun e => ?_⟩
        constructor
        · rintro ⟨⟩
          exact ⟨[], rest, rfl, hj, by simp, by simpa using hm⟩
        · rintro ⟨mid, tail, hre, hco, hmid, -⟩
          rcases mid with - | ⟨j', mid⟩
          · cases hre
            rfl
          · cases hre
            rw [(forall_mem_cons.1 hmid).1] at hj
            cases hj
    · refine ⟨none, by simp [stepBack, hm, intersects_ofAddr, hi], fun e => ?_⟩
      simp [hm]

/-- Nothing comes before the address: only the first entry is looked at. -/
theorem find_of_upTo_nil (hup : upTo (.ofAddr a) tree = []) :
    find tree a = .ok (tree.head?.filter fun i => i.1.contains a) := by
  simp only [find, findRange, hup]
  rcases tree.head? with - | i
  · rfl
  · rcases hi : i.1.contains a with - | - <;> simp [intersects_ofAddr, Option.filter, hi]

/-- The last entry that does not come after the address is looked at, and perhaps those before it. -/
theorem find_of_upTo_cons {rest : List (Entry V)} (hup : upTo (.ofAddr a) tree = i :: rest) :
    ∃ x, find tree a = .ok x ∧ ∀ e, x = some e ↔
      e = i ∧ i.1.contains a = true ∨ i.1.contains a = false ∧ i.1.interleaved = true ∧
      ∃ mid tail, rest = mid ++ e :: tail ∧ e.1.contains a = true ∧
        (∀ f ∈ mid, f.1.contains a = false) ∧ ∀ f ∈ i :: mid, f.1.mergesWith i.1 = true := by
  simp only [find, findRange, hup]
  rcases hi : i.1.contains a with - | -
  · by_cases hin : i.1.interleaved = true
    · obtain ⟨x, hx, hsp⟩ := stepBack_eq i.1 hi rest
      refine ⟨x, by simp [intersects_ofAddr, hi, hin, hx], fun e => ?_⟩
      simp [hsp e, hin]
    · exact ⟨none, by simp [intersects_ofAddr, hi, hin], fun e => by simp [hin]⟩
  · refine ⟨some i, by simp [intersects_ofAddr, hi], fun e => ⟨?_, ?_⟩⟩
    · rintro ⟨⟩
      exact .inl ⟨rfl, rfl⟩
    · rintro (⟨rfl, -⟩ | ⟨⟨⟩, -⟩)
      rfl

/-- The lookup never panics, and finds nothing but entries with the address. -/
theorem find_eq (tree : List (Entry V)) (a : Addr) :
    ∃ x, find tree a = .ok x ∧ ∀ e, x = some e → e ∈ tree ∧ e.1.contains a = true := by
  rcases hup : upTo (.ofAddr a) tree with - | ⟨i, rest⟩
  · refine ⟨_, find_of_upTo_nil hup, fun e he => ?_⟩
    obtain ⟨hh, hco⟩ := Option.filter_eq_some_iff.1 he
    exact ⟨mem_of_head? hh, hco⟩
  have hmem : ∀ f ∈ i :: rest, f ∈ tree := by
    rw [← hup]
    exact fun f hf => (takeWhile_sublist _).mem (mem_reverse.1 hf)
  obtain ⟨x, hx, hsp⟩ := find_of_upTo_cons hup
  refine ⟨x, hx, fun e he => ?_⟩
  rcases (hsp e).1 he with ⟨rfl, hco⟩ | ⟨-, -, mid, tail, rfl, hco, -⟩
  · exact ⟨hmem e mem_cons_self, hco⟩
  · exact ⟨hmem e (by simp), hco⟩

end

/-! ## What it should find -/

/-- The two ranges have no address in common. -/
def Apart (r r' : AddrRange) : Prop := ∀ a, ¬ (r.contains a = true ∧ r'.contains a = true)

/-- The lookup is right: it finds the entry with the address, or there is none. -/
def Found (tree : List (Entry V)) (a : Addr) : Prop :=
  (∃ e ∈ tree, e.1.contains a = true ∧ find tree a = .ok (some e)) ∨
    (∀ e ∈ tree, e.1.contains a = false) ∧ find tree a = .ok none

/-- The entry `f` comes after `e`, and not after the address. -/
def Between (e : Entry V) (a : Addr) (f : Entry V) : Prop :=
  before e f = true ∧ (ofAddr a).lt f.1 = false
deriving Decidable

/-- An entry that comes after the address is the first of all.  The entries between any other one and
the address are interleaved, and of one chunk. -/
def Visible (tree : List (Entry V)) (a : Addr) (e : Entry V) : Prop :=
  if (ofAddr a).lt e.1 then tree.head? = some e
  else ∀ f ∈ tree, ∀ g ∈ tree, Between e a f → Between e a g → f.1.interleaved = true ∧ f.1.mergesWith g.1 = true

instance [DecidableEq V] (tree : List (Entry V)) (a : Addr) (e : Entry V) : Decidable (Visible tree a e) :=
  inferInstanceAs (Decidable (ite _ _ _))

section

variable {tree : List (Entry V)} {a : Addr} {e : Entry V}

theorem upward_ofAddr (a : Addr) : Upward before fun e : Entry V => (ofAddr a).lt e.1 :=
  fun _ _ hxy hx => lt_trans _ _ _ hx hxy

variable {f : Entry V} {mid tail : List (Entry V)}

theorem mem_upTo (hso : Sorted before tree) : f ∈ upTo (.ofAddr a) tree ↔ f ∈ tree ∧ (ofAddr a).lt f.1 = false := by
  rw [upTo, mem_reverse, mem_below (upward_ofAddr a) hso]

theorem find_iff_of_lt (hso : Sorted before tree) (hco : e.1.contains a = true)
    (hlt : (ofAddr a).lt e.1 = true) : find tree a = .ok (some e) ↔ tree.head? = some e := by
  rcases hup : upTo (.ofAddr a) tree with - | ⟨i, rest⟩
  · rw [find_of_upTo_nil hup, Except.ok.injEq, Option.filter_eq_some_iff, and_iff_left hco]
  have hnot : ∀ f ∈ i :: rest, f ≠ e := by
    rintro f hf rfl
    rw [← hup, mem_upTo hso, hlt] at hf
    cases hf.2
  constructor
  · intro hfi
    obtain ⟨x, hx, hsp⟩ := find_of_upTo_cons hup
    rw [hx, Except.ok.injEq] at hfi
    rcases (hsp e).1 hfi with ⟨rfl, -⟩ | ⟨-, -, mid, tail, rfl, -⟩
    · exact absurd rfl (hnot e mem_cons_self)
    · exact absurd rfl (hnot e (by simp))
  · -- the first entry is one of those in front of the address
    intro hh
    have hbe : below (fun f => (ofAddr a).lt f.1) tree = (i :: rest).reverse := by
      rw [← hup, upTo, reverse_reverse]
    rcases tree with - | ⟨f, tree⟩
    · cases hh
    · cases hh
      rw [below, takeWhile_cons_of_neg (by simp [hlt])] at hbe
      simp at hbe

/-- The entries between `e` and the address are those in front of `e` in the search. -/
theorem between_iff (hso : Sorted before tree) (hup : upTo (.ofAddr a) tree = mid ++ e :: tail) :
    f ∈ tree ∧ Between e a f ↔ f ∈ mid := by
  have hrev : (mid ++ e :: tail).Pairwise fun x y => before y x = true := by
    rw [← hup, upTo, pairwise_reverse]
    exact hso.sublist (takeWhile_sublist _)
  obtain ⟨-, hta, hmid⟩ := pairwise_append.1 hrev
  have hir : before e e = false := AddrRange.lt_irrefl e.1
  constructor
  · rintro ⟨hf, hbe, hlt⟩
    have hmem := (mem_upTo hso).2 ⟨hf, hlt⟩
    rw [hup, mem_append, mem_cons] at hmem
    rcases hmem with hmem | rfl | hmem
    · exact hmem
    · rw [hir] at hbe
      cases hbe
    · have hcy := lt_trans _ _ _ hbe (rel_of_pairwise_cons hta hmem)
      rw [AddrRange.lt_irrefl] at hcy
      cases hcy
  · intro hf
    have hmem : f ∈ upTo (.ofAddr a) tree := by
      rw [hup]
      exact mem_append_left _ hf
    obtain ⟨hf', hlt⟩ := (mem_upTo hso).1 hmem
    exact ⟨hf', hmid f hf e mem_cons_self, hlt⟩

/-- An entry behind others in the search is found when they are all of one chunk. -/
theorem find_iff_of_upTo {i : Entry V}
    (hup : upTo (.ofAddr a) tree = i :: (mid ++ e :: tail)) (hco : e.1.contains a = true)
    (ho : ∀ f ∈ i :: mid, f.1.contains a = false) :
    find tree a = .ok (some e) ↔ i.1.interleaved = true ∧ ∀ f ∈ i :: mid, f.1.mergesWith i.1 = true := by
  obtain ⟨hi, hmid⟩ := forall_mem_cons.1 ho
  obtain ⟨x, hx, hspe⟩ := find_of_upTo_cons hup
  rw [hx, Except.ok.injEq, hspe]
  constructor
  · rintro (⟨rfl, h⟩ | ⟨-, hin, mid', tail', hsp, -, hmid', hall⟩)
    · rw [hi] at h
      cases h
    · -- the entries up to the first one with the address
      have hsa := congrArg (List.takeWhile fun f : Entry V => !f.1.contains a) hsp
      have hst : ∀ l, List.takeWhile (fun f : Entry V => !f.1.contains a) (e :: l) = [] :=
        fun l => takeWhile_cons_of_neg (by simp [hco])
      rw [takeWhile_append_of_pos (by simpa using hmid),
        takeWhile_append_of_pos (by simpa using hmid'), hst, hst, append_nil,
        append_nil] at hsa
      rw [hsa]
      exact ⟨hin, hall⟩
  · rintro ⟨hin, hall⟩
    exact .inr ⟨hi, hin, mid, tail, rfl, hco, hmid, hall⟩

section

variable (hso : Sorted before tree) (he : e ∈ tree) (hco : e.1.contains a = true)
include hso he hco

theorem find_iff_of_not_lt (hon : ∀ f ∈ tree, f.1.contains a = true → f = e) (hlt : (ofAddr a).lt e.1 = false) :
    find tree a = .ok (some e) ↔ ∀ f ∈ tree, ∀ g ∈ tree, Between e a f → Between e a g →
      f.1.interleaved = true ∧ f.1.mergesWith g.1 = true := by
  obtain ⟨mid, tail, hup⟩ := append_of_mem ((mem_upTo hso).2 ⟨he, hlt⟩)
  have hbe : ∀ {f : Entry V}, f ∈ tree ∧ Between e a f ↔ f ∈ mid := between_iff hso hup
  rcases mid with - | ⟨i, mid⟩
  · refine iff_of_true ?_ fun f hf _ _ hbf _ => absurd (hbe.1 ⟨hf, hbf⟩) not_mem_nil
    obtain ⟨x, hx, hsp⟩ := find_of_upTo_cons hup
    rw [hx, (hsp e).2 (.inl ⟨rfl, hco⟩)]
  have ho : ∀ f ∈ i :: mid, f.1.contains a = false := by
    intro f hf
    obtain ⟨hf', hbef, -⟩ := hbe.2 hf
    refine Bool.eq_false_iff.2 fun hc => ?_
    rw [hon f hf' hc, before, AddrRange.lt_irrefl] at hbef
    cases hbef
  rw [find_iff_of_upTo hup hco ho]
  constructor
  · rintro ⟨hin, hall⟩ f hf g hg hbf hbg
    have hfi := hall f (hbe.1 ⟨hf, hbf⟩)
    have hgi := hall g (hbe.1 ⟨hg, hbg⟩)
    refine ⟨?_, mergesWith_trans hfi (mergesWith_symm hgi)⟩
    rw [interleaved, (mergesWith_iff.1 hfi).2.2.2.2.symm]
    exact hin
  · intro hall
    obtain ⟨hi, hbi⟩ := hbe.2 (mem_cons_self (a := i) (l := mid))
    refine ⟨(hall i hi i hi hbi hbi).1, fun f hf => ?_⟩
    obtain ⟨hf', hbf⟩ := hbe.2 hf
    exact (hall f hf' i hi hbf hbi).2

/-- The entry with the address is found exactly when it is visible. -/
theorem find_iff_visible (ho : ∀ f ∈ tree, f.1.contains a = true → f = e) :
    find tree a = .ok (some e) ↔ Visible tree a e := by
  rw [Visible]
  split_ifs with hlt
  · exact find_iff_of_lt hso hco hlt
  · exact find_iff_of_not_lt hso he hco ho (Bool.eq_false_iff.2 hlt)

end

end

/-! ## Maps that are built by inserts -/

/-- The entry to insert is apart from all that are there. -/
def Fits (tree : List (Entry V)) (e : Entry V) : Prop := ∀ f ∈ tree, Apart f.1 e.1

/-- Sorted, and pairwise apart. -/
structure Inv (tree : List (Entry V)) : Prop where
  sorted : Sorted before tree
  apart : ∀ e ∈ tree, ∀ f ∈ tree, e = f ∨ Apart e.1 f.1

variable {e f : Entry V} {tree : List (Entry V)}

theorem Inv.insert {tree' : List (Entry V)} (h : Inv tree) (hfi : Fits tree e)
    (hin : AddrRanges.insert tree e = .ok tree') : Inv tree' := by
  obtain ⟨x, -, hx⟩ := bind_eq_ok.1 hin
  rcases x with - | x
  · cases hx
    refine ⟨sorted_insert (fun _ _ _ => lt_trans _ _ _) h.sorted, fun f hf g hg => ?_⟩
    rcases mem_insert hf with rfl | hf' <;> rcases mem_insert hg with rfl | hg'
    · exact .inl rfl
    · exact .inr fun a ha => hfi g hg' a ⟨ha.2, ha.1⟩
    · exact .inr (hfi f hf')
    · exact h.apart f hf' g hg'
  · cases hx

theorem inv_of_reaches (h : Reaches insert Fits [] tree) : Inv tree :=
  h.invariant (P := Inv) ⟨List.Pairwise.nil, fun _ he => absurd he not_mem_nil⟩
    fun _ hinv hf hin => hinv.insert hf hin

theorem Inv.eq_of_contains {a : Addr} (h : Inv tree)
    (he : e ∈ tree) (hf : f ∈ tree) (hea : e.1.contains a = true) (hfa : f.1.contains a = true) : f = e := by
  rcases h.apart f hf e he with heq | ha
  · exact heq
  · exact absurd ⟨hfa, hea⟩ (ha a)

theorem Inv.found_iff_visible (h : Inv tree) (a : Addr) :
    Found tree a ↔ ∀ e ∈ tree, e.1.contains a = true → Visible tree a e := by
  have hiff : ∀ e ∈ tree, e.1.contains a = true → (find tree a = .ok (some e) ↔ Visible tree a e) := fun e he hco =>
    find_iff_visible h.sorted he hco fun f hf => h.eq_of_contains he hf hco
  constructor
  · rintro (⟨e, he, hco, hfi⟩ | ⟨hn, -⟩) f hf hf'
    · rw [h.eq_of_contains he hf hco hf']
      exact (hiff e he hco).1 hfi
    · rw [hn f hf] at hf'
      cases hf'
  · intro hv
    by_cases hso : ∃ e ∈ tree, e.1.contains a = true
    · obtain ⟨e, he, hco⟩ := hso
      exact .inl ⟨e, he, hco, (hiff e he hco).2 (hv e he hco)⟩
    have hn : ∀ e ∈ tree, e.1.contains a = false := fun e he => Bool.eq_false_iff.2 fun hc => hso ⟨e, he, hc⟩
    obtain ⟨x, hx, hsp⟩ := find_eq tree a
    refine .inr ⟨hn, ?_⟩
    rcases x with - | e
    · exact hx
    · exact absurd (hsp e rfl) fun he => hso ⟨e, he⟩

/-- **When a lookup is right.**  In a map that is built by inserts of ranges that are apart from each
other, an address is looked up correctly exactly when the entry that contains it, if there is one, is
visible from it. -/
theorem found_iff {tree : List (Entry V)} (h : Reaches insert Fits [] tree) (a : Addr) :
    Found tree a ↔ ∀ e ∈ tree, e.1.contains a = true → Visible tree a e :=
  (inv_of_reaches h).found_iff_visible a

/-! ## Maps of whole chunks -/

/-- The ranges are not empty, and two of them whose intervals meet belong to one chunk. -/
structure Chunked (tree : List (Entry V)) : Prop where
  valid : ∀ e ∈ tree, e.1.start ≤ e.1.stop
  merges : ∀ e ∈ tree, ∀ f ∈ tree, (∃ a, e.1.Spans a ∧ f.1.Spans a) → e.1.mergesWith f.1 = true

section

variable {tree : List (Entry V)} {a : Addr} {e f : Entry V}

theorem lt_ofAddr_iff (hco : e.1.contains a = true) :
    (ofAddr a).lt e.1 = true ↔ ¬ (e.1.start < a ∨ e.1.intlvMatch = 0) := by
  have hle := (spans_of_contains hco).1
  rw [lt_iff]
  simp only [ofAddr, BitVec.lt_def, BitVec.le_def, ← BitVec.toNat_inj] at hle ⊢
  omega

/-- Whatever is between an entry and an address in it is of the same chunk. -/
theorem Chunked.merges_of_between (h : Chunked tree) (he : e ∈ tree) (hf : f ∈ tree)
    (hco : e.1.contains a = true) (hbe : Between e a f) : e.1.mergesWith f.1 = true := by
  have hsp := spans_of_contains hco
  have hle : e.1.start ≤ f.1.start := by
    rcases lt_iff.1 hbe.1 with hlt | ⟨heq, -⟩
    · exact BitVec.le_of_lt hlt
    · exact heq ▸ BitVec.le_refl _
  have hle' : f.1.start ≤ a := by
    refine BitVec.not_lt.1 fun hlt => ?_
    have ha : (ofAddr a).lt f.1 = true := lt_iff.2 (.inl hlt)
    exact Bool.false_ne_true (hbe.2.symm.trans ha)
  exact h.merges e he f hf ⟨f.1.start, ⟨hle, BitVec.le_trans hle' hsp.2⟩, BitVec.le_refl _, h.valid f hf⟩

/-- In a map of whole chunks, a lookup goes wrong only at the start of a chunk, and only if the first
stripe is not that of match value 0. -/
theorem Inv.found_iff_of_chunked (h : Inv tree) (hch : Chunked tree) :
    Found tree a ↔ ∀ e ∈ tree, e.1.contains a = true → (e.1.start < a ∨ e.1.intlvMatch = 0) ∨ tree.head? = some e := by
  rw [h.found_iff_visible]
  refine forall₂_congr fun e he => forall_congr' fun hco => ?_
  by_cases hlt : (ofAddr a).lt e.1 = true
  · rw [Visible, if_pos hlt, or_iff_right ((lt_ofAddr_iff hco).1 hlt)]
  refine iff_of_true ?_ (.inl (not_not.1 (mt (lt_ofAddr_iff hco).2 hlt)))
  rw [Visible, if_neg hlt]
  intro f hf g hg hbf hbg
  have hef := hch.merges_of_between he hf hco hbf
  have heg := hch.merges_of_between he hg hco hbg
  refine ⟨?_, mergesWith_trans (mergesWith_symm hef) heg⟩
  -- a plain range of the chunk would be the whole interval, with the address in it
  by_contra hpl
  have hsp := spans_of_contains hco
  obtain ⟨hst, hsto, -⟩ := mergesWith_iff.1 hef
  have hfa : f.1.contains a = true := by
    simp [AddrRange.contains, Bool.eq_false_iff.2 hpl, hst, hsto, hsp.1, hsp.2]
  have hbe := hbf.1
  rw [h.eq_of_contains he hf hco hfa, before, AddrRange.lt_irrefl] at hbe
  cases hbe

end

/-- Members of a chunk with different values are apart. -/
theorem AddrRange.apart_of_mergesWith {r r' : AddrRange} (hm : r.mergesWith r' = true) (hin : r.interleaved = true)
    (hne : BitVec.ofNat 64 r.intlvMatch ≠ BitVec.ofNat 64 r'.intlvMatch) : Apart r r' := by
  rintro a ⟨ha, ha'⟩
  obtain ⟨-, -, hhigh, hxor, hbi⟩ := mergesWith_iff.1 hm
  have hi' : r'.interleaved = r.interleaved := by
    rw [interleaved, interleaved, hbi]
  have hh : r'.hashed = r.hashed := by
    rw [hashed, hashed, hi', hxor]
  have hse : r'.selected a = r.selected a := by
    simp only [selected, hh, hhigh, hxor, hbi]
  simp only [AddrRange.contains, hi', hin, Bool.not_true, Bool.false_eq_true, if_false,
    Bool.and_eq_true, beq_iff_eq] at ha ha'
  exact hne (ha.2.symm.trans (hse.symm.trans ha'.2))

/-- Two members of a chunk are inserted. -/
theorem reaches_pair (hm : e.1.mergesWith f.1 = true) (hin : e.1.interleaved = true)
    (hne : BitVec.ofNat 64 e.1.intlvMatch ≠ BitVec.ofNat 64 f.1.intlvMatch)
    (hins : insert [e] f = .ok [e, f]) : Reaches insert Fits [] [e, f] := by
  refine .step (.step .refl (fun f hf => absurd hf not_mem_nil) (a := e) rfl) ?_ hins
  intro g hg
  rw [mem_singleton.1 hg]
  exact apart_of_mergesWith hm hin hne

/-- Two banks from 0 on, in stripes of 64 bytes: the second stripe is found in the second bank. -/
theorem found_iff_twoBanks :
    Found [({ start := 0, stop := 0xff, intlvHighBit := 6, intlvBits := 1, intlvMatch := 0 }, 0),
      ({ start := 0, stop := 0xff, intlvHighBit := 6, intlvBits := 1, intlvMatch := 1 }, 1)] 0x40 :=
  (found_iff (reaches_pair (by decide) (by decide) (by decide) rfl) 0x40).2 (by decide +kernel)

/-- The same, in a map of one chunk. -/
theorem found_iff_of_chunked_twoBanks : Found [({ start := 0, stop := 0xff, intlvHighBit := 6, intlvBits := 1 }, 0),
      ({ start := 0, stop := 0xff, intlvHighBit := 6, intlvBits := 1, intlvMatch := 1 }, 1)] 0x40 := by
  refine (Inv.found_iff_of_chunked (inv_of_reaches (reaches_pair (by decide) (by decide) (by decide) rfl))
    ⟨by decide, fun e he f hf _ => ?_⟩).2 (by decide +kernel)
  exact (show ∀ e ∈ _, ∀ f ∈ _, e.1.mergesWith f.1 = true by decide) e he f hf

/-- Two banks from 0x40 on, where the first stripe is the second bank's: its first address is not
found. -/
theorem not_found_at_start : ∃ tree : List (Entry Nat), Reaches insert Fits [] tree ∧
      (∃ e ∈ tree, e.1.contains 0x40 = true) ∧ find tree 0x40 = .ok none ∧ ¬ Found tree 0x40 := by
  refine ⟨[({ start := 0x40, stop := 0x13f, intlvHighBit := 6, intlvBits := 1, intlvMatch := 0 }, 0),
    ({ start := 0x40, stop := 0x13f, intlvHighBit := 6, intlvBits := 1, intlvMatch := 1 }, 1)],
    reaches_pair (by decide) (by decide) (by decide) rfl, by decide +kernel, rfl, ?_⟩
  rintro (⟨e, -, -, hf⟩ | ⟨hn, -⟩)
  · cases hf
  · exact absurd hn (by decide +kernel)

end GuardianCouncil.AddrRanges
