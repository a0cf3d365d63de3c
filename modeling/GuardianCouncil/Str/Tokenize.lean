import Mathlib.Data.List.TakeWhile

/-!
# Tokenizing a string

`tokenize` cuts a string at every occurrence of a character.  It runs over the string with two positions,
`first` at the start of the next token and `last` at the separator behind it, and skips separators in two
different places if it is to ignore empty tokens.  What it appends is compared with `List.splitOn`.
-/

namespace GuardianCouncil.Str

open List

variable {α : Type} [DecidableEq α]

inductive Thrown where
  /-- `substr` with a position behind the end of the string. -/
  | outOfRange
  /-- The bound on the iterations of a loop is reached. -/
  | outOfFuel
deriving DecidableEq

/-- The first position from `pos` on with a character that meets `p`; `none` is `npos`. -/
def findFrom (p : α → Bool) (s : List α) (pos : ℕ) : Option ℕ :=
  let i := pos + (s.drop pos).findIdx p
  if i < s.length then some i else none

def findFirstOf (s : List α) (token : α) (pos : ℕ) : Option ℕ := findFrom (· == token) s pos

def findFirstNotOf (s : List α) (token : α) (pos : ℕ) : Option ℕ := findFrom (· != token) s pos

def substr (s : List α) (pos n : ℕ) : Except Thrown (List α) :=
  if pos ≤ s.length then .ok ((s.drop pos).take n) else .error .outOfRange

/-- `while (last == first) last = s.find_first_of(token, ++first)`. -/
def skipLoop (s : List α) (token : α) : ℕ → ℕ → Option ℕ → Except Thrown (ℕ × Option ℕ)
  | 0, _, _ => .error .outOfFuel
  | fuel + 1, first, last =>
    if last = some first then skipLoop s token fuel (first + 1) (findFirstOf s token (first + 1))
    else .ok (first, last)

/-- `while (last != npos)`, with the `push_back` behind the loop. -/
def tokenLoop (s : List α) (token : α) (ignore : Bool) :
    ℕ → List (List α) → ℕ → Option ℕ → Except Thrown (List (List α))
  | 0, _, _, _ => .error .outOfFuel
  | _ + 1, v, first, none => do return v ++ [← substr s first s.length]
  | fuel + 1, v, first, some last => do
    let v := v ++ [← substr s first (last - first)]
    if ignore then
      match findFirstNotOf s token (last + 1) with
      | none => return v
      | some first => tokenLoop s token ignore fuel v first (findFirstOf s token first)
    else tokenLoop s token ignore fuel v (last + 1) (findFirstOf s token (last + 1))

def tokenize (v : List (List α)) (s : List α) (token : α) (ignore : Bool) : Except Thrown (List (List α)) := do
  let fuel := s.length + 1
  let last := findFirstOf s token 0
  if s = [] then return v
  if ignore ∧ last = some 0 then
    let (first, last) ← skipLoop s token fuel 0 last
    if last = none then
      if first ≠ s.length then return v ++ [← substr s first s.length] else return v
    else tokenLoop s token ignore fuel v first last
  else tokenLoop s token ignore fuel v 0 last

/-- The tokens that are not empty. -/
def words (token : α) (s : List α) : List (List α) := (s.splitOn token).filter (· ≠ [])

/-! ## Positions as suffixes -/

section

variable {p : α → Bool} {s : List α} {token : α} {pos i : ℕ}

omit [DecidableEq α] in
theorem drop_findFrom (h : findFrom p s pos = some i) :
    pos ≤ i ∧ i < s.length ∧ (∃ x, s.drop i = x :: s.drop (i + 1) ∧ p x = true) ∧
      s.drop i = (s.drop pos).dropWhile (!p ·) ∧ (s.drop pos).take (i - pos) = (s.drop pos).takeWhile (!p ·) := by
  rw [findFrom] at h
  split_ifs at h with hlt
  cases h
  have hd : s.drop (pos + (s.drop pos).findIdx p) = (s.drop pos).dropWhile (!p ·) := by
    rw [dropWhile_eq_drop_findIdx_not, drop_drop]
    simp only [Bool.not_not]
  refine ⟨Nat.le_add_right _ _, hlt, ⟨_, drop_eq_getElem_cons hlt, ?_⟩, hd, ?_⟩
  · have := @findIdx_getElem _ p (s.drop pos) (by rw [length_drop]; omega)
    rwa [getElem_drop] at this
  · rw [takeWhile_eq_take_findIdx_not, Nat.add_sub_cancel_left]
    simp only [Bool.not_not]

omit [DecidableEq α] in
theorem dropWhile_of_findFrom_none (h : findFrom p s pos = none) : (s.drop pos).dropWhile (!p ·) = [] := by
  rw [findFrom] at h
  split_ifs at h with hlt
  rw [dropWhile_eq_drop_findIdx_not, drop_drop]
  simp only [Bool.not_not]
  exact drop_eq_nil_of_le (Nat.not_lt.1 hlt)

theorem not_mem_of_findFirstOf (h : findFirstOf s token pos = none) : token ∉ s.drop pos := by
  intro hmem
  have := dropWhile_eq_nil_iff.1 (dropWhile_of_findFrom_none h) token hmem
  simp at this

/-- What stands between the two positions, and behind the separator. -/
theorem split_of_findFirstOf (h : findFirstOf s token pos = some i) :
    pos ≤ i ∧ i < s.length ∧ token ∉ (s.drop pos).take (i - pos) ∧
      s.drop pos = (s.drop pos).take (i - pos) ++ token :: s.drop (i + 1) := by
  obtain ⟨hle, hlt, ⟨x, hco, hx⟩, hd, hta⟩ := drop_findFrom h
  obtain rfl := beq_iff_eq.1 hx
  refine ⟨hle, hlt, fun hmem => ?_, ?_⟩
  · rw [hta] at hmem
    have hneg := mem_takeWhile_imp (p := fun y => !y == x) hmem
    rw [beq_self_eq_true] at hneg
    exact Bool.false_ne_true hneg
  · rw [← hco, hd, hta, takeWhile_append_dropWhile]

end

/-! ## The pieces of a suffix -/

section

variable {token : α} {t s : List α}

theorem splitOn_of_not_mem (h : token ∉ s) : s.splitOn token = [s] :=
  splitOnP_eq_singleton fun _ hx => beq_eq_false_iff_ne.2 fun heq => h (heq ▸ hx)

theorem splitOn_append_cons (h : token ∉ t) (s : List α) : (t ++ token :: s).splitOn token = t :: s.splitOn token := by
  have hfree : ∀ x ∈ t, (x == token) = false := fun x hx => beq_eq_false_iff_ne.2 fun heq => h (heq ▸ hx)
  exact splitOnP_append_cons_of_forall_mem hfree token (beq_self_eq_true token) s

theorem not_mem_of_mem_splitOn (h : t ∈ s.splitOn token) : token ∉ t := by
  induction hn : s.length using Nat.strong_induction_on generalizing s with
  | _ n ih =>
    by_cases hmem : token ∈ s
    · obtain ⟨a, b, rfl, ha⟩ := eq_append_cons_of_mem hmem
      rw [splitOn_append_cons ha, mem_cons] at h
      obtain rfl | h := h
      · exact ha
      · exact ih b.length (by simp only [← hn, length_append, length_cons]; omega) h rfl
    · rw [splitOn_of_not_mem hmem, mem_singleton] at h
      exact h ▸ hmem

theorem words_of_not_mem (h : token ∉ s) (hne : s ≠ []) : words token s = [s] := by
  rw [words, splitOn_of_not_mem h, filter_cons, if_pos (decide_eq_true hne), filter_nil]

theorem words_append_cons (h : token ∉ t) (hne : t ≠ []) (s : List α) :
    words token (t ++ token :: s) = t :: words token s := by
  rw [words, splitOn_append_cons h, filter_cons, if_pos (decide_eq_true hne), words]

theorem words_cons_self (s : List α) : words token (token :: s) = words token s := by
  rw [words, ← nil_append (token :: s), splitOn_append_cons not_mem_nil]
  rfl

theorem words_dropWhile (s : List α) : words token (s.dropWhile (· == token)) = words token s := by
  induction s with
  | nil => rfl
  | cons a s ih =>
    rw [dropWhile_cons]
    split_ifs with ha
    · rw [ih, beq_iff_eq.1 ha, words_cons_self]
    · rfl

end

/-! ## The loops -/

section

variable {s : List α} {token : α}

omit [DecidableEq α] in
theorem substr_length {first : ℕ} (h : first ≤ s.length) : substr s first s.length = .ok (s.drop first) := by
  rw [substr, if_pos h, take_of_length_le (by simp)]

theorem tokenLoop_keep (fuel first : ℕ) (v : List (List α)) (hle : first ≤ s.length) (hfu : s.length - first < fuel) :
    tokenLoop s token false fuel v first (findFirstOf s token first) = .ok (v ++ (s.drop first).splitOn token) := by
  induction fuel generalizing first v with
  | zero => exact absurd hfu (Nat.not_lt_zero _)
  | succ fuel ih =>
    cases hla : findFirstOf s token first with
    | none =>
      rw [tokenLoop, substr_length hle, splitOn_of_not_mem (not_mem_of_findFirstOf hla)]
      rfl
    | some last =>
      obtain ⟨hf, hlt, hfree, hsp⟩ := split_of_findFirstOf hla
      rw [tokenLoop, substr, if_pos hle]
      show tokenLoop s token false fuel _ (last + 1) _ = _
      rw [ih _ _ hlt (by omega), hsp, splitOn_append_cons hfree, ← hsp, append_assoc]
      rfl

/-- When separators are skipped, the loop is entered at the start of a token. -/
theorem tokenLoop_ignore (fuel first : ℕ) (v : List (List α)) (hlt : first < s.length)
    (hst : findFirstOf s token first ≠ some first) (hfu : s.length - first < fuel) :
    tokenLoop s token true fuel v first (findFirstOf s token first) = .ok (v ++ words token (s.drop first)) := by
  induction fuel generalizing first v with
  | zero => exact absurd hfu (Nat.not_lt_zero _)
  | succ fuel ih =>
    have hne : s.drop first ≠ [] := fun h => absurd (drop_eq_nil_iff.1 h) (Nat.not_le.2 hlt)
    cases hla : findFirstOf s token first with
    | none =>
      rw [tokenLoop, substr_length hlt.le, words_of_not_mem (not_mem_of_findFirstOf hla) hne]
      rfl
    | some last =>
      obtain ⟨hf, hlast_lt, hfree, hsp⟩ := split_of_findFirstOf hla
      have hwo : (s.drop first).take (last - first) ≠ [] := by
        have : last ≠ first := fun h => hst (h ▸ hla)
        rw [Ne, take_eq_nil_iff, not_or]
        exact ⟨by omega, hne⟩
      rw [tokenLoop, substr, if_pos hlt.le, hsp, words_append_cons hfree hwo, ← hsp]
      show (match findFirstNotOf s token (last + 1) with | none => _ | some first => _) = _
      cases hnext : findFirstNotOf s token (last + 1) with
      | none =>
        have hnil := dropWhile_of_findFrom_none hnext
        simp only [bne, Bool.not_not] at hnil
        rw [← words_dropWhile (s.drop (last + 1)), hnil]
        rfl
      | some next =>
        obtain ⟨hle, hnext_lt, ⟨x, hco, hx⟩, hd, -⟩ := drop_findFrom hnext
        simp only [bne, Bool.not_not] at hd
        have hnew : findFirstOf s token next ≠ some next := by
          intro h
          obtain ⟨-, -, -, heq⟩ := split_of_findFirstOf h
          rw [Nat.sub_self, take_zero, nil_append, hco] at heq
          exact bne_iff_ne.1 hx (cons.inj heq).1
        show tokenLoop s token true fuel _ next _ = _
        rw [ih _ _ hnext_lt hnew (by omega), hd, words_dropWhile, append_assoc]
        rfl

/-- The first loop ends at the first character that is not a separator, or behind the string. -/
theorem skipLoop_eq (fuel first : ℕ) (hle : first ≤ s.length) (hf : s.length - first < fuel) :
    ∃ q ≤ s.length, skipLoop s token fuel first (findFirstOf s token first) = .ok (q, findFirstOf s token q) ∧
      findFirstOf s token q ≠ some q ∧ words token (s.drop q) = words token (s.drop first) := by
  induction fuel generalizing first with
  | zero => exact absurd hf (Nat.not_lt_zero _)
  | succ fuel ih =>
    rw [skipLoop]
    split_ifs with hsep
    · obtain ⟨-, hlt, -, heq⟩ := split_of_findFirstOf hsep
      obtain ⟨q, hq, hrun, hnot, hwo⟩ := ih (first + 1) hlt (by omega)
      refine ⟨q, hq, hrun, hnot, hwo.trans ?_⟩
      rw [Nat.sub_self, take_zero, nil_append] at heq
      rw [heq, words_cons_self]
    · exact ⟨first, hle, rfl, hsep, rfl⟩

end

theorem tokenize_ignore (v : List (List α)) (s : List α) (token : α) :
    tokenize v s token true = .ok (v ++ words token s) := by
  rw [tokenize]
  by_cases hs : s = []
  · subst hs
    rw [if_pos rfl]
    exact congrArg Except.ok (append_nil v).symm
  have hpos : 0 < s.length := length_pos_iff.2 hs
  rw [if_neg hs]
  by_cases hsep : findFirstOf s token 0 = some 0
  · obtain ⟨q, hq, hrun, hnot, hwo⟩ := @skipLoop_eq _ _ s token (s.length + 1) 0 hpos.le (by omega)
    rw [if_pos ⟨rfl, hsep⟩, hrun]
    show (if findFirstOf s token q = none then _ else _) = _
    rw [drop_zero] at hwo
    rw [← hwo]
    split_ifs with hn hend
    · rw [substr_length hq, words_of_not_mem (not_mem_of_findFirstOf hn)]
      · rfl
      · exact fun h => hend (le_antisymm hq (drop_eq_nil_iff.1 h))
    · rw [not_not] at hend
      rw [hend, drop_length]
      exact congrArg Except.ok (append_nil v).symm
    · refine tokenLoop_ignore _ _ _ (lt_of_le_of_ne hq fun h => hn ?_) hnot (by omega)
      rw [findFirstOf, findFrom, if_neg (by omega)]
  · rw [if_neg fun h => hsep h.2]
    exact tokenLoop_ignore _ _ _ hpos hsep (by omega)

theorem tokenize_keep (v : List (List α)) {s : List α} (token : α) (hs : s ≠ []) :
    tokenize v s token false = .ok (v ++ s.splitOn token) := by
  rw [tokenize, if_neg hs, if_neg fun h => Bool.false_ne_true h.1]
  exact tokenLoop_keep _ _ _ (Nat.zero_le _) (Nat.lt_succ_of_le (Nat.sub_le _ _))

/-- Without `ignore` the appended strings are the only ones that are free of the separator and give the
string back; with it they are those of them that are not empty.  No position behind the end is used. -/
theorem tokenize_splits (v : List (List α)) (s : List α) (token : α) :
    ∃ ts, (∀ t ∈ ts, token ∉ t) ∧ [token].intercalate ts = s ∧
      (∀ us ≠ [], (∀ t ∈ us, token ∉ t) → [token].intercalate us = s → us = ts) ∧
      (s ≠ [] → tokenize v s token false = .ok (v ++ ts)) ∧
      tokenize v s token true = .ok (v ++ ts.filter (· ≠ [])) := by
  refine ⟨s.splitOn token, fun t => not_mem_of_mem_splitOn, intercalate_splitOn token, ?_,
    tokenize_keep v token, tokenize_ignore v s token⟩
  rintro us hne hfree rfl
  exact (splitOn_intercalate token hfree hne).symm

example : tokenize [] [0, 0, 1, 2, 0, 0, 3, 0] 0 true = .ok [[1, 2], [3]] := by decide

end GuardianCouncil.Str
