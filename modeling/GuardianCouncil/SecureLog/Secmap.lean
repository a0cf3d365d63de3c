import Mathlib.Data.List.GetD
import GuardianCouncil.Lib.Istream
import GuardianCouncil.SecureLog.Map

/-!
# The configuration file

`init` reads the filter and map programs from `secmap.ini`: for each program a line with its number of cores
and a line with one character for each kind of entry.  Blank lines and lines that start with `#` are
skipped, wherever they stand.

A character is meant to say `0` for nothing, `-` for counter mode, `|` for blocker mode, and otherwise which
core of the program gets the entry, from `1` on.  The expression that decodes it adds `corestart` to the
condition of the last conditional and not to its value, so `decode` is right for the first program only:
a later program gets the wrong queue for a letter and blocker mode for a digit.  Two more things are not
read as they are written (`parsed_iff`): a file whose last map line has no newline is read forever, and
a number of cores that is not an `int` overflows.
-/

namespace GuardianCouncil.SecureLog

open Fallible List Function Istream

inductive LoadFault
  /-- `int` overflow, after which the source's behaviour is undefined. -/
  | overflow
  /-- An index outside its array. -/
  | outOfRange
  | outOfFuel
  deriving DecidableEq

/-! ## Lines -/

/-- A line that `GetNextLine` does not skip. -/
def isContent : List Char → Bool
  | [] => false
  | c :: _ => c != '#'

def nextLineLoop : Nat → Istream → List Char → List Char × Istream
  | 0, f, line => (line, f)
  | fuel + 1, f, line =>
    let (line, f) := f.getline line
    if f.fail then (line, f)
    else if isContent line then (line, f)
    else nextLineLoop fuel f []

/-- `GetNextLine`.  Every round but the last two reads a newline. -/
def getNextLine (f : Istream) (line : List Char) : List Char × Istream :=
  nextLineLoop (f.rest.length + 2) f line

/-! ## Numbers and characters -/

/-- `int` addition. -/
def intAdd (a b : Int) : Except LoadFault Int :=
  if -2147483648 ≤ a + b ∧ a + b ≤ 2147483647 then .ok (a + b) else .error .overflow

def isSpace (c : Char) : Bool := c == ' ' || ('\t' ≤ c && c ≤ '\r')

/-- `atoi`: `strtol` stays inside a `long`, of which an `int` keeps the lower half. -/
def atoi (s : List Char) : Int :=
  let s := s.dropWhile isSpace
  let (neg, s) : Bool × List Char :=
    match s with
    | '-' :: s => (true, s)
    | '+' :: s => (false, s)
    | s => (false, s)
  let v : Int := (s.takeWhile Char.isDigit).foldl (fun v c => 10 * v + (c.toNat - 48)) 0
  let v := if neg then -v else v
  (max (-9223372036854775808) (min 9223372036854775807 v)).bmod 4294967296

/-- The value of a `char`. -/
def code (c : Char) : Int := (c.toNat : Int).bmod 256

/-- `(A &~ 0x20) - 'A' + 10`. -/
def letterValue (c : Char) : Int := (BitVec.ofInt 32 (code c) &&& ~~~(0x20#32)).toInt - 65 + 10

/-- What the entry of `map` is computed from.  The condition of the last conditional is
`p.corestart + (A > '9')`. -/
def decode (corestart : Int) (c : Char) : Except LoadFault Int :=
  if c = '-' then .ok (-1)
  else if c = '|' then .ok (-2)
  else if c = '0' then .ok 0
  else do
    let cond ← intAdd corestart (if code '9' < code c then 1 else 0)
    .ok (if cond ≠ 0 then letterValue c else code c - 48)

/-! ## Programs -/

def instTypes : List InstType :=
  [.load, .store, .indirectBranch, .call, .ret, .memflush, .barrier, .comms, .block]

/-- The loop over the characters of a map line. -/
def readMap (corestart : Int) : List Char → Nat → (InstType → Int) → (InstType → Bool) →
    Except LoadFault ((InstType → Int) × (InstType → Bool))
  | [], _, map, filterb => .ok (map, filterb)
  | c :: line, i, map, filterb =>
    match instTypes[i]? with
    | none => .error .outOfRange
    | some it => do
      let v ← decode corestart c
      readMap corestart line (i + 1) (update map it v)
        (update filterb it (filterb it || c != '0'))

structure Loaded where
  programs : List SProgram
  filterb : InstType → Bool
  ready : Int

/-- `while (!line.empty())`.  `garbage` is what a new `sprogram` holds in `map`. -/
def loadLoop (garbage : Nat → InstType → Int) :
    Nat → List Char → Istream → Int → List SProgram → (InstType → Bool) → Except LoadFault Loaded
  | 0, _, _, _, _, _ => .error .outOfFuel
  | fuel + 1, line, f, cores, programs, filterb =>
    if line = [] then .ok ⟨programs, filterb, cores⟩
    else do
      let sum ← intAdd cores (atoi line)
      let coreend ← intAdd sum (-1)
      let next ← intAdd coreend 1
      let (line, f) := getNextLine f line
      let (map, filterb) ← readMap cores line 0 (garbage programs.length) filterb
      let p : SProgram := { map, counter := cores, corestart := cores, coreend }
      let (line, f) := getNextLine f line
      loadLoop garbage fuel line f next (programs ++ [p]) filterb

def loadSecmap (garbage : Nat → InstType → Int) (fuel : Nat) (text : List Char) : Except LoadFault Loaded :=
  let (line, f) := getNextLine { rest := text } []
  loadLoop garbage fuel line f 0 [] fun _ => false

/-- `init`, of a file that holds `text`. -/
def initFrom (garbage : Nat → InstType → Int) (fuel : Nat) (text : List Char) : Except LoadFault State := do
  let r ← loadSecmap garbage fuel text
  .ok (init r.programs r.filterb r.ready)

/-! ## What a file means -/

/-- The number that a character of a map line stands for. -/
def denotes (c : Char) : Option ℕ :=
  if '1' ≤ c ∧ c ≤ '9' then some (c.toNat - 48)
  else if 'A' ≤ c ∧ c ≤ 'Z' then some (c.toNat - 55)
  else if 'a' ≤ c ∧ c ≤ 'z' then some (c.toNat - 87)
  else none

/-- The entry of `map` that a character asks for. -/
def meaning (corestart : Int) (c : Char) : Option Int :=
  if c = '0' then some 0
  else if c = '-' then some (-1)
  else if c = '|' then some (-2)
  else (denotes c).map fun k : ℕ => corestart + (k : Int)

def InstType.index : InstType → ℕ
  | .load => 0
  | .store => 1
  | .indirectBranch => 2
  | .call => 3
  | .ret => 4
  | .memflush => 5
  | .barrier => 6
  | .comms => 7
  | .block => 8

/-- The character of a map line for a kind of entry. -/
def charAt (line : List Char) (it : InstType) : Char := line.getD it.index '0'

/-- A program and the two lines it comes from. -/
structure ProgramOk (start : Int) (count line : List Char) (p : SProgram) : Prop where
  corestart : p.corestart = start
  coreend : p.coreend = start + atoi count - 1
  map : ∀ it v, meaning start (charAt line it) = some v → p.map it = v
  /-- An entry for a core of the program goes to the queue of that core. -/
  delivers : ∀ it k, denotes (charAt line it) = some k → ∀ advance s st, s.insttype = it →
    mapProgram advance s p st = (do
      let q ← asQueue (start + k - 1)
      let st ← addToQueue s q 0 st
      .ok (p, st))

/-- One program for each pair of lines, on consecutive cores. -/
def ProgramsOk : Int → List (List Char × List Char) → List SProgram → Prop
  | _, [], [] => True
  | start, (count, line) :: pairs, p :: ps =>
    ProgramOk start count line p ∧ ProgramsOk (start + atoi count) pairs ps
  | _, _, _ => False

def totalCores : List (List Char × List Char) → Int
  | [] => 0
  | (count, _) :: pairs => atoi count + totalCores pairs

structure Parsed (pairs : List (List Char × List Char)) (st : State) : Prop where
  programs : ProgramsOk 0 pairs st.programs
  ready : st.ready = totalCores pairs
  filterb : ∀ it, st.filterb it = true ↔ ∃ pair ∈ pairs, charAt pair.2 it ≠ '0'

/-! ## Reading lines -/

/-- The reader that is given the lines `ls` will not see the end of the text. -/
def endsOpen (t : Bool) (ls : List (List Char)) : Bool := !t && (ls.getLast?.map isContent).getD false

variable {l line : List Char} {ls : List (List Char)} {t stuck : Bool} {f : Istream} {corestart v start : Int}
  {c : Char} {k : ℕ} {pairs : List (List Char × List Char)}

theorem endsOpen_cons (h : ls ≠ [] ∨ t = true) : endsOpen t (l :: ls) = endsOpen t ls := by
  cases ls with
  | nil =>
    obtain rfl : t = true := h.resolve_left (fun hne => hne rfl)
    rfl
  | cons l' ls => rw [endsOpen, endsOpen, getLast?_cons_cons]

/-- The lines that a stream still has for `GetNextLine`, and whether it gives the last one for ever. -/
def Ahead (f : Istream) (cs : List (List Char)) (stuck : Bool) : Prop :=
  (∃ ls t, f.good = true ∧ f.rest = text t ls ∧ (∀ l ∈ ls, '\n' ∉ l) ∧
      ls.filter isContent = cs ∧ stuck = endsOpen t ls) ∨
    (f.good = false ∧ cs = [] ∧ stuck = true)

theorem fail_of_good (h : f.good = true) : f.fail = false := by
  simp only [good, Bool.and_eq_true, Bool.not_eq_true'] at h
  exact h.2

theorem nextLineLoop_of_not_good (h : f.good = false) (fuel : Nat) (line : List Char) :
    nextLineLoop (fuel + 1) f line = (line, { f with fail := true }) := by
  rw [nextLineLoop, getline_of_not_good h]
  rfl

theorem nextLineLoop_skip (hgood : f.good = true) (hre : f.rest = text t (l :: ls)) (hl : '\n' ∉ l)
    (hm : ls ≠ [] ∨ t = true) (hsk : isContent l = false) (fuel : Nat) (line : List Char) :
    nextLineLoop (fuel + 1) f line = nextLineLoop fuel { f with rest := text t ls } [] := by
  rw [nextLineLoop, getline_text hgood hre hl hm]
  simp [fail_of_good hgood, hsk]

/-- The line that has been read, and what comes after it. -/
def Current (line : List Char) (f : Istream) (stuck : Bool) : List (List Char) → Prop
  | [] => if stuck then line ≠ [] ∧ f.good = false else line = []
  | c :: cs => line = c ∧ Ahead f cs stuck

/-- The loop goes on to the next line that counts, or to the end. -/
theorem nextLineLoop_current (ls : List (List Char)) (t : Bool) (hls : ∀ l ∈ ls, '\n' ∉ l) (fuel : Nat)
    (f : Istream) (line : List Char) (hgood : f.good = true) (hre : f.rest = text t ls) :
    ∃ line' f', nextLineLoop (fuel + ls.length + 1) f line = (line', f') ∧
      Current line' f' (endsOpen t ls) (ls.filter isContent) := by
  induction ls generalizing f line with
  | nil =>
    refine ⟨[], { f with rest := [], eof := true, fail := true }, ?_, by simp [Current, endsOpen]⟩
    rw [nextLineLoop, getline_last hgood hre (l := []) (by simp)]
    rfl
  | cons l ls ih =>
    obtain ⟨hl, hls'⟩ := forall_mem_cons.1 hls
    by_cases hm : ls ≠ [] ∨ t = true
    · rw [endsOpen_cons hm]
      by_cases hco : isContent l = true
      · rw [filter_cons_of_pos hco]
        refine ⟨l, { f with rest := text t ls }, ?_, rfl, .inl ⟨ls, t, hgood, rfl, hls', rfl, rfl⟩⟩
        rw [nextLineLoop, getline_text hgood hre hl hm]
        simp [fail_of_good hgood, hco]
      · rw [filter_cons_of_neg hco, length_cons, ← add_assoc, nextLineLoop_skip hgood hre hl hm (by simpa using hco)]
        exact ih hls' _ [] hgood rfl
    · -- the last line, without its newline
      obtain ⟨rfl, rfl⟩ : ls = [] ∧ t = false := by simpa using hm
      rw [nextLineLoop, getline_last hgood (l := l) hre hl]
      by_cases hco : isContent l = true
      · have hne : l ≠ [] := by
          rintro rfl
          cases hco
        refine ⟨l, { f with rest := [], eof := true, fail := false }, by simp [hco, hne], ?_⟩
        rw [filter_cons_of_pos hco]
        exact ⟨rfl, .inr ⟨by simp [good], rfl, by simp [endsOpen, hco]⟩⟩
      · have hend : ∀ f, Current [] f (endsOpen false [l]) ([l].filter isContent) := fun f => by
          simp [Current, endsOpen, hco]
        by_cases hem : l = []
        · subst hem
          exact ⟨_, _, rfl, hend _⟩
        · simp only [hco, isEmpty_eq_false_iff.2 hem, Bool.false_eq_true, if_false]
          exact ⟨_, _, nextLineLoop_of_not_good (by simp [good]) _ [], hend _⟩

theorem length_le_length_text (ls : List (List Char)) (t : Bool) : ls.length ≤ (text t ls).length + 1 := by
  induction ls with
  | nil => exact Nat.zero_le _
  | cons l ls ih =>
    by_cases hm : ls ≠ [] ∨ t = true
    · rw [text_cons hm]
      simp only [length_cons, length_append]
      omega
    · obtain ⟨rfl, rfl⟩ : ls = [] ∧ t = false := by simpa using hm
      simp

/-- A stream that is not good gives the same line for ever. -/
theorem getNextLine_stuck (h : f.good = false) (line : List Char) :
    getNextLine f line = (line, { f with fail := true }) :=
  nextLineLoop_of_not_good h _ line

theorem getNextLine_current {cs : List (List Char)} (h : Ahead f cs stuck) (hl : f.good = true ∨ l ≠ []) :
    ∃ line' f', getNextLine f l = (line', f') ∧ Current line' f' stuck cs := by
  rcases h with ⟨ls, t, hgood, hre, hls, rfl, rfl⟩ | ⟨hgood, rfl, rfl⟩
  · have hlen := length_le_length_text ls t
    rw [← hre] at hlen
    obtain ⟨k, hk⟩ := Nat.exists_eq_add_of_le' hlen
    rw [getNextLine, show f.rest.length + 2 = k + ls.length + 1 by omega]
    exact nextLineLoop_current ls t hls k f l hgood hre
  · refine ⟨l, _, getNextLine_stuck hgood l, hl.resolve_left (by simp [hgood]), ?_⟩
    simp [good]

/-! ## Decoding characters -/

theorem intAdd_eq_ok {a b c : Int} : intAdd a b = .ok c ↔ (-2147483648 ≤ a + b ∧ a + b ≤ 2147483647) ∧ c = a + b := by
  rw [intAdd]
  split <;> simp_all [eq_comm]

/-- What `decode` gives where nothing overflows. -/
def decoded (corestart : Int) (c : Char) : Int :=
  if c = '-' then -1
  else if c = '|' then -2
  else if c = '0' then 0
  else if corestart + (if code '9' < code c then 1 else 0) ≠ 0 then letterValue c
  else code c - 48

theorem decode_eq (h0 : 0 ≤ corestart) (hlt : corestart < 2147483647) (c : Char) :
    decode corestart c = .ok (decoded corestart c) := by
  have hadd : ∀ b : Int, b = 0 ∨ b = 1 → intAdd corestart b = .ok (corestart + b) := by
    intro b hb
    exact intAdd_eq_ok.2 ⟨by omega, rfl⟩
  rw [decode, decoded, hadd _ (by split <;> simp)]
  split
  · rfl
  · split
    · rfl
    · split <;> rfl

/-- Digits and letters, with the two values that the code computes for them. -/
theorem denotes_spec (h : denotes c = some k) : 1 ≤ k ∧ c ≠ '-' ∧ c ≠ '|' ∧ c ≠ '0' ∧ letterValue c ≤ k ∧
      (if code '9' < code c then letterValue c else code c - 48) = k := by
  have hall : ∀ n < 128, ∀ k ∈ denotes (Char.ofNat n), 1 ≤ k ∧ Char.ofNat n ≠ '-' ∧
      Char.ofNat n ≠ '|' ∧ Char.ofNat n ≠ '0' ∧ letterValue (Char.ofNat n) ≤ k ∧
      (if code '9' < code (Char.ofNat n) then letterValue (Char.ofNat n)
        else code (Char.ofNat n) - 48) = k := by
    decide +kernel
  have hle : c ≤ '9' ∨ c ≤ 'Z' ∨ c ≤ 'z' := by
    rw [denotes] at h
    split_ifs at h with hd hup hlo
    · exact .inl hd.2
    · exact .inr (.inl hup.2)
    · exact .inr (.inr hlo.2)
  have hlt : c.toNat < 128 := by
    rcases hle with hle | hle | hle <;> exact (UInt32.le_iff_toNat_le.1 hle).trans_lt (by decide)
  have hc := hall c.toNat hlt k
  rw [Char.ofNat_toNat] at hc
  exact hc h

theorem decoded_zero (h : denotes c = some k) : decoded 0 c = k := by
  obtain ⟨-, hm, hbar, hzero, -, hval⟩ := denotes_spec h
  rw [decoded, if_neg hm, if_neg hbar, if_neg hzero, ← hval]
  by_cases hgt : code '9' < code c <;> simp [hgt]

/-- The character of a core is never decoded right in a program that is not the first. -/
theorem decoded_pos (h : denotes c = some k) (hpos : 0 < corestart) : decoded corestart c ≠ corestart + k := by
  obtain ⟨-, hm, hbar, hzero, hle, -⟩ := denotes_spec h
  rw [decoded, if_neg hm, if_neg hbar, if_neg hzero, if_pos (by split <;> omega)]
  omega

theorem decoded_mode (hn : denotes c = none) (h : meaning corestart c = some v) : decoded corestart c = v := by
  rw [meaning, hn] at h
  rw [decoded]
  split_ifs at h with hzero hm hbar <;> simp_all

theorem decoded_first (h : meaning 0 c = some v) : decoded 0 c = v := by
  rcases hk : denotes c with _ | k
  · exact decoded_mode hk h
  · obtain ⟨-, hm, hbar, hzero, -, -⟩ := denotes_spec hk
    rw [meaning, if_neg hzero, if_neg hm, if_neg hbar, hk] at h
    rw [decoded_zero hk]
    simpa using h

/-! ## Map lines -/

theorem index_of_getElem? {i : ℕ} {it : InstType} (h : instTypes[i]? = some it) : it.index = i := by
  have hall : ∀ i < 9, ∀ it ∈ instTypes[i]?, it.index = i := by decide
  have hlt : i < 9 := (List.getElem?_eq_some_iff.1 h).1
  exact hall i hlt it h

/-- From character `i` on. -/
theorem readMap_from (h0 : 0 ≤ corestart) (hlt : corestart < 2147483647)
    (line : List Char) (i : ℕ) (hli : i + line.length = 9) (map : InstType → Int) (filterb : InstType → Bool) :
    readMap corestart line i map filterb =
      .ok (fun it => if i ≤ it.index then decoded corestart (line.getD (it.index - i) '0') else map it,
        fun it => if i ≤ it.index then filterb it || line.getD (it.index - i) '0' != '0'
          else filterb it) := by
  induction line generalizing i map filterb with
  | nil =>
    have hla : ∀ it : InstType, it.index < i := by
      intro it
      rw [length_nil, add_zero] at hli
      cases it <;> simp [InstType.index, hli]
    simp only [readMap, Nat.not_le.2 (hla _), if_false]
  | cons c line ih =>
    rw [length_cons] at hli
    obtain ⟨it, hit⟩ : ∃ it, instTypes[i]? = some it :=
      ⟨_, getElem?_eq_getElem (show i < instTypes.length by simp [instTypes]; omega)⟩
    have hin := index_of_getElem? hit
    rw [readMap, hit]
    simp only [decode_eq h0 hlt, ok_bind]
    rw [ih (i + 1) (by omega)]
    have hget : ∀ x : InstType, x ≠ it → i ≤ x.index → i + 1 ≤ x.index ∧
        (c :: line).getD (x.index - i) '0' = line.getD (x.index - (i + 1)) '0' := by
      intro x hne hle
      have hne' : x.index ≠ i := by
        intro heq
        have hx : instTypes[x.index]? = some x := by cases x <;> rfl
        rw [heq, hit] at hx
        exact hne (Option.some.inj hx).symm
      refine ⟨by omega, ?_⟩
      rw [show x.index - i = x.index - (i + 1) + 1 by omega, getD_cons_succ]
    have hsk : ∀ x : InstType, ¬ i ≤ x.index → ¬ i + 1 ≤ x.index := fun x hle => by omega
    congr 2 <;> funext x <;> by_cases hx : x = it
    · simp [hx, hin]
    · by_cases hle : i ≤ x.index
      · obtain ⟨hle', hc⟩ := hget x hx hle
        rw [if_pos hle, if_pos hle', hc]
      · rw [if_neg hle, if_neg (hsk x hle), update_of_ne hx]
    · simp [hx, hin]
    · by_cases hle : i ≤ x.index
      · obtain ⟨hle', hc⟩ := hget x hx hle
        rw [if_pos hle, if_pos hle', hc, update_of_ne hx]
      · rw [if_neg hle, if_neg (hsk x hle), update_of_ne hx]

theorem readMap_eq (h0 : 0 ≤ corestart) (hlt : corestart < 2147483647)
    (hli : line.length = 9) (map : InstType → Int) (filterb : InstType → Bool) :
    readMap corestart line 0 map filterb = .ok (fun it => decoded corestart (charAt line it),
        fun it => filterb it || charAt line it != '0') := by
  rw [readMap_from h0 hlt line 0 (by omega)]
  simp [charAt]

/-! ## The loop -/

/-- The program that is made of a pair of lines. -/
def builtProgram (start : Int) (count line : List Char) : SProgram where
  map it := decoded start (charAt line it)
  counter := start
  corestart := start
  coreend := start + atoi count - 1

def built : Int → List (List Char × List Char) → List SProgram
  | _, [] => []
  | start, (count, line) :: pairs => builtProgram start count line :: built (start + atoi count) pairs

def filtered : (InstType → Bool) → List (List Char × List Char) → InstType → Bool
  | filterb, [] => filterb
  | filterb, (_, line) :: pairs => filtered (fun it => filterb it || charAt line it != '0') pairs

def pairLines (pairs : List (List Char × List Char)) : List (List Char) :=
  pairs.flatMap fun pair => [pair.1, pair.2]

/-- A stream that gives the same line for ever is read for ever. -/
theorem loadLoop_stuck (garbage : Nat → InstType → Int) (fuel : Nat)
    (hli : line ≠ []) (hf : f.good = false) (cores : Int) (programs : List SProgram)
    (filterb : InstType → Bool) (r : Loaded) : loadLoop garbage fuel line f cores programs filterb ≠ .ok r := by
  induction fuel generalizing f cores programs filterb with
  | zero => simp [loadLoop]
  | succ fuel ih =>
    intro h
    rw [loadLoop, if_neg hli] at h
    obtain ⟨sum, -, h⟩ := bind_eq_ok.1 h
    obtain ⟨coreend, -, h⟩ := bind_eq_ok.1 h
    obtain ⟨next, -, h⟩ := bind_eq_ok.1 h
    rw [getNextLine_stuck hf] at h
    obtain ⟨⟨map, filterb'⟩, -, h⟩ := bind_eq_ok.1 h
    have hf' : good { f with fail := true } = false := by simp [good]
    simp only [getNextLine_stuck hf'] at h
    exact ih (by simp [good]) _ _ _ h

theorem totalCores_nonneg (h : ∀ pair ∈ pairs, 0 < atoi pair.1) : 0 ≤ totalCores pairs := by
  induction pairs with
  | nil => exact le_rfl
  | cons pair pairs ih =>
    obtain ⟨hpos, hre⟩ := forall_mem_cons.1 h
    have hle := ih hre
    rw [totalCores]
    omega

/-- **The loop**, over the pairs of lines that are left. -/
theorem exists_loadLoop_iff (garbage : Nat → InstType → Int) (pairs : List (List Char × List Char))
    (hpa : ∀ pair ∈ pairs, isContent pair.1 = true ∧ 0 < atoi pair.1 ∧ pair.2.length = 9)
    (hcur : Current line f stuck (pairLines pairs))
    {cores : Int} (h0 : 0 ≤ cores) (hmax : cores ≤ 2147483647) (programs : List SProgram)
    (filterb : InstType → Bool) (r : Loaded) : (∃ fuel, loadLoop garbage fuel line f cores programs filterb = .ok r) ↔
      stuck = false ∧ cores + totalCores pairs ≤ 2147483647 ∧
        r = ⟨programs ++ built cores pairs, filtered filterb pairs, cores + totalCores pairs⟩ := by
  induction pairs generalizing line f cores programs filterb with
  | nil =>
    cases stuck with
    | true =>
      obtain ⟨hli, hf⟩ := hcur
      refine ⟨fun ⟨fuel, h⟩ => absurd h (loadLoop_stuck garbage fuel hli hf _ _ _ r), ?_⟩
      rintro ⟨hfa, -⟩
      cases hfa
    | false =>
      obtain rfl : line = [] := hcur
      rw [totalCores, built, filtered, Int.add_zero, append_nil]
      constructor
      · rintro ⟨_ | fuel, h⟩
        · cases h
        · cases h
          exact ⟨rfl, hmax, rfl⟩
      · rintro ⟨-, -, rfl⟩
        exact ⟨1, rfl⟩
  | cons pair pairs ih =>
    obtain ⟨count, mapLine⟩ := pair
    obtain ⟨⟨hcon, hpos, hlen⟩, hre⟩ := forall_mem_cons.1 hpa
    obtain ⟨rfl, ha⟩ := hcur
    change 0 < atoi line at hpos
    have hco : line ≠ [] := by
      rintro rfl
      cases hcon
    have hm : mapLine ≠ [] := by
      rintro rfl
      cases hlen
    obtain ⟨line₁, f₁, hf₁, hl₁, ha₁⟩ :=
      getNextLine_current (show Ahead f (mapLine :: pairLines pairs) stuck from ha) (.inr hco)
    rw [hl₁] at hf₁
    obtain ⟨line₂, f₂, hf₂, hcur⟩ := getNextLine_current ha₁ (.inr hm)
    have hst : ∀ fuel, loadLoop garbage (fuel + 1) line f cores programs filterb =
        if cores + atoi line ≤ 2147483647 then
          loadLoop garbage fuel line₂ f₂ (cores + atoi line)
            (programs ++ [builtProgram cores line mapLine]) (fun it => filterb it || charAt mapLine it != '0')
        else .error .overflow := by
      intro fuel
      rw [loadLoop, if_neg hco]
      by_cases hle : cores + atoi line ≤ 2147483647
      · have hsum : intAdd cores (atoi line) = .ok (cores + atoi line) := intAdd_eq_ok.2 ⟨by omega, rfl⟩
        have hend : intAdd (cores + atoi line) (-1) = .ok (cores + atoi line - 1) := intAdd_eq_ok.2 ⟨by omega, rfl⟩
        have hnext : intAdd (cores + atoi line - 1) 1 = .ok (cores + atoi line) := intAdd_eq_ok.2 ⟨by omega, by omega⟩
        rw [if_pos hle, hsum, ok_bind, hend, ok_bind, hnext, ok_bind, hf₁]
        simp only [readMap_eq h0 (show cores < 2147483647 by omega) hlen, ok_bind, hf₂]
        rfl
      · rw [if_neg hle, intAdd, if_neg (by omega), error_bind]
    have hn := totalCores_nonneg fun pair hpai => (hre pair hpai).2.1
    by_cases hle : cores + atoi line ≤ 2147483647
    · have hih := ih hre hcur (show 0 ≤ cores + atoi line by omega) hle
        (programs ++ [builtProgram cores line mapLine]) (fun it => filterb it || charAt mapLine it != '0')
      rw [append_assoc, Int.add_assoc] at hih
      refine Iff.trans ⟨?_, ?_⟩ hih
      · rintro ⟨_ | fuel, h⟩
        · cases h
        · rw [hst, if_pos hle] at h
          exact ⟨fuel, h⟩
      · rintro ⟨fuel, h⟩
        exact ⟨fuel + 1, by rw [hst, if_pos hle, h]⟩
    · refine ⟨?_, fun ⟨_, hto, _⟩ => ?_⟩
      · rintro ⟨_ | fuel, h⟩
        · cases h
        · rw [hst, if_neg hle] at h
          cases h
      · rw [totalCores] at hto
        omega

/-! ## What the programs do -/

theorem exists_charAt (hlen : line.length = 9) (hc : c ∈ line) : ∃ it, charAt line it = c := by
  obtain ⟨i, hi, rfl⟩ := mem_iff_getElem.1 hc
  have hit : i < instTypes.length := by rwa [hlen] at hi
  refine ⟨instTypes[i], ?_⟩
  rw [charAt, index_of_getElem? (getElem?_eq_getElem hit), getD_eq_getElem _ _ hi]

theorem programOk_iff (h0 : 0 ≤ start) {count : List Char} (hlen : line.length = 9) :
    ProgramOk start count line (builtProgram start count line) ↔ start = 0 ∨ ∀ c ∈ line, denotes c = none := by
  constructor
  · intro h
    by_contra hnot
    obtain ⟨hst, hch⟩ := not_or.1 hnot
    push Not at hch
    obtain ⟨c, hc, hne⟩ := hch
    obtain ⟨k, hk⟩ := Option.ne_none_iff_exists'.1 hne
    obtain ⟨it, rfl⟩ := exists_charAt hlen hc
    obtain ⟨-, hm, hbar, hzero, -, -⟩ := denotes_spec hk
    refine decoded_pos hk (lt_of_le_of_ne h0 (Ne.symm hst)) (h.map it (start + k) ?_)
    rw [meaning, if_neg hzero, if_neg hm, if_neg hbar, hk, Option.map_some]
  · intro h
    have hn : ∀ it, start = 0 ∨ denotes (charAt line it) = none := by
      intro it
      refine h.imp_right fun hch => ?_
      rw [charAt]
      rcases lt_or_ge it.index line.length with hlt | hge
      · rw [getD_eq_getElem _ _ hlt]
        exact hch _ (getElem_mem hlt)
      · rw [getD_eq_default _ _ hge]
        decide
    refine ⟨rfl, rfl, fun it v hv => ?_, fun it k hk advance s st hs => ?_⟩
    · rcases hn it with rfl | hit
      · exact decoded_first hv
      · exact decoded_mode hit hv
    · obtain rfl : start = 0 := (hn it).resolve_right (by rw [hk]; simp)
      obtain ⟨hpos, -⟩ := denotes_spec hk
      have hval : (builtProgram 0 count line).map s.insttype = k := hs ▸ decoded_zero hk
      rw [mapProgram, hval, Int.zero_add]
      rw [if_neg (by omega), if_pos (by omega)]

theorem programsOk_iff (hst : 0 < start) (hpa : ∀ pair ∈ pairs, 0 < atoi pair.1 ∧ pair.2.length = 9) :
    ProgramsOk start pairs (built start pairs) ↔ ∀ pair ∈ pairs, ∀ c ∈ pair.2, denotes c = none := by
  induction pairs generalizing start with
  | nil => simp [ProgramsOk, built]
  | cons pair pairs ih =>
    obtain ⟨⟨hpos, hlen⟩, hre⟩ := forall_mem_cons.1 hpa
    rw [built, ProgramsOk, forall_mem_cons, programOk_iff hst.le hlen, ih (by omega) hre, or_iff_right hst.ne']

theorem filtered_iff (filterb : InstType → Bool) (pairs : List (List Char × List Char)) (it : InstType) :
    filtered filterb pairs it = true ↔ filterb it = true ∨ ∃ pair ∈ pairs, charAt pair.2 it ≠ '0' := by
  induction pairs generalizing filterb with
  | nil => simp [filtered]
  | cons pair pairs ih => simp [filtered, ih, or_assoc]

/-- What `init` makes of a file that is right as it stands. -/
theorem parsed_built_iff (hpa : ∀ pair ∈ pairs, 0 < atoi pair.1 ∧ pair.2.length = 9) :
    Parsed pairs (init (built 0 pairs) (filtered (fun _ => false) pairs) (totalCores pairs)) ↔
      ∀ pair ∈ pairs.tail, ∀ c ∈ pair.2, denotes c = none := by
  have hpr : ProgramsOk 0 pairs (built 0 pairs) ↔ ∀ pair ∈ pairs.tail, ∀ c ∈ pair.2, denotes c = none := by
    cases pairs with
    | nil => simp [ProgramsOk, built]
    | cons pair pairs =>
      obtain ⟨⟨hpos, hlen⟩, hre⟩ := forall_mem_cons.1 hpa
      rw [built, ProgramsOk, programOk_iff le_rfl hlen, programsOk_iff (by omega) hre]
      simp
  refine ⟨fun h => hpr.1 h.programs, fun h => ⟨hpr.2 h, rfl, fun it => ?_⟩⟩
  exact (filtered_iff _ pairs it).trans (by simp)

/-- A file of pairs of lines is read as it is meant exactly if the last map line has its newline, the number of
cores is an `int`, and no program but the first has a character for a core. -/
theorem parsed_iff (garbage : Nat → InstType → Int) (terminated : Bool) (ls : List (List Char))
    (pairs : List (List Char × List Char)) (hls : ∀ l ∈ ls, '\n' ∉ l) (hcontent : ls.filter isContent = pairLines pairs)
    (hpairs : ∀ pair ∈ pairs, 0 < atoi pair.1 ∧ pair.2.length = 9) :
    (∃ fuel st, initFrom garbage fuel (text terminated ls) = .ok st ∧ Parsed pairs st) ↔
      endsOpen terminated ls = false ∧ totalCores pairs ≤ 2147483647 ∧
        ∀ pair ∈ pairs.tail, ∀ c ∈ pair.2, denotes c = none := by
  have ha : Ahead { rest := text terminated ls } (pairLines pairs) (endsOpen terminated ls) :=
    .inl ⟨ls, terminated, rfl, rfl, hls, hcontent, rfl⟩
  obtain ⟨line, f, hf, hcur⟩ := getNextLine_current (l := []) ha (.inl rfl)
  have hli : ∀ pair ∈ pairs, isContent pair.1 = true ∧ 0 < atoi pair.1 ∧ pair.2.length = 9 := by
    intro pair hpai
    have hmem : pair.1 ∈ ls.filter isContent := by
      rw [hcontent]
      exact mem_flatMap.2 ⟨pair, hpai, mem_cons_self⟩
    exact ⟨(mem_filter.1 hmem).2, hpairs pair hpai⟩
  have hlo := exists_loadLoop_iff garbage pairs hli hcur le_rfl (by decide) [] fun _ => false
  rw [Int.zero_add, nil_append] at hlo
  constructor
  · rintro ⟨fuel, st, hin, hpa⟩
    rw [initFrom, loadSecmap, hf] at hin
    obtain ⟨r, hr, hst⟩ := bind_eq_ok.1 hin
    obtain ⟨ho, hto, rfl⟩ := (hlo r).1 ⟨fuel, hr⟩
    cases hst
    exact ⟨ho, hto, (parsed_built_iff hpairs).1 hpa⟩
  · rintro ⟨ho, hto, hch⟩
    obtain ⟨fuel, hr⟩ := (hlo _).2 ⟨ho, hto, rfl⟩
    refine ⟨fuel, _, ?_, (parsed_built_iff hpairs).2 hch⟩
    rw [initFrom, loadSecmap, hf]
    simp only [hr, ok_bind]

/-- Two programs, of two cores that are named and of one in counter mode, with a comment and a blank line. -/
theorem parsed_iff_twoPrograms :
    ∃ fuel st, initFrom (fun _ _ => 0) fuel "2\n# map\n120000000\n\n1\n--0000000\n".toList = .ok st ∧
      Parsed [("2".toList, "120000000".toList), ("1".toList, "--0000000".toList)] st :=
  (parsed_iff (fun _ _ => 0) true
    ["2".toList, "# map".toList, "120000000".toList, [], "1".toList, "--0000000".toList]
    [("2".toList, "120000000".toList), ("1".toList, "--0000000".toList)] (by decide) (by decide)
    (by decide)).2 ⟨by decide, by decide, by simp [denotes]⟩

/-- The second of two programs asks for its first core, which is queue 1, at every load: it gets blocker mode. -/
theorem secondProgram_misread : (initFrom (fun _ _ => 0) 4 "1\n-00000000\n1\n100000000\n".toList).toOption.map
      (fun st => st.programs.map fun p => (p.corestart, p.map .load)) = some [(0, -1), (1, -38)] := by
  decide +kernel

end GuardianCouncil.SecureLog
