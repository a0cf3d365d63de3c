import GuardianCouncil.SecureLog.Run
import GuardianCouncil.ShadowStack.Collector

/-!
# The parallel shadow stack against the sequential one

`guardian_kernels/shadowstackparfilter.cpp`, and the whole system of filters and collector.  The
main core commits calls and returns.  They go to one filter core after another: a program in
blocker mode feeds one queue until a `Block` entry, which carries the queue fed next.  A filter
cancels the calls and returns that match within what it is fed, forwards a return for which it has
no call, and at a `Block` forwards the calls that are left, oldest first, followed by the switch.

A run is a list of moves (`Move`) in program order, each seen by one filter (`inputs`).  The abstract
counterpart is one shadow stack fed with all the events (`sequential`).  The `ledger` of a run relates
the two: it keeps apart the addresses pushed since the last `Block`, which the present filter holds, and
the older ones, which the collector is meant to hold.

The collector never holds them.  It compares the core number of the sender, which starts at `1`,
with a target that counts from `0` and is `0` until a switch is obeyed, so it puts every word aside
and applies none; core `12` even makes it index past the end of its queues.  The words it puts
aside are wrong as well: `(data << 2) & 1` and `(addr << 2) & 2` are `0` for every address.
-/

namespace GuardianCouncil.ShadowStack

open List Function

open SecureLog (Queue Core InstType SProgram)

/-! ## Runs -/

inductive Event
  /-- A call, with its return address. -/
  | call (addr : UInt64)
  /-- A return; its number identifies it among the returns of the run. -/
  | ret (number : Nat) (addr : UInt64)
  deriving DecidableEq

/-- What the log hands to the filters, in program order. -/
inductive Move
  /-- An event, for the filter being fed. -/
  | event (e : Event)
  /-- A `Block` entry for the filter being fed; `target` is fed from now on. -/
  | block (target : Queue)
  deriving DecidableEq

open Move

/-- An entry as a filter pops it: item `1` and, in the second register, the type. -/
structure Input where
  type : InstType
  addr : UInt64
  /-- History: the number of the return the entry was made for. -/
  origin : Option Nat
  deriving DecidableEq

/-- The entry that the log makes of a move. -/
def Move.input : Move → Input
  | .event (.call addr) => ⟨.call, addr, none⟩
  | .event (.ret number addr) => ⟨.ret, addr, some number⟩
  | .block target => ⟨.block, UInt64.ofNat target.val, none⟩

/-- The queue that is fed after a move. -/
def Move.feeds (cur : Queue) : Move → Queue
  | .event _ => cur
  | .block target => target

/-- The queue that is fed after a run that started with `start`. -/
def fed (start : Queue) (run : List Move) : Queue := run.foldl feeds start

/-- The entries of a run that reach the filter behind queue `q`. -/
def inputs : Queue → List Move → Queue → List Input
  | _, [], _ => []
  | cur, m :: run, q => (if q = cur then [m.input] else []) ++ inputs (m.feeds cur) run q

def Move.number : Move → Option Nat
  | .event (.ret number _) => some number
  | _ => none

/-- The numbers of the returns of a run. -/
def numbers (run : List Move) : List Nat := run.filterMap number

/-! ## Filters -/

/-- The state of a filter kernel, and what it has sent. -/
structure Filter where
  /-- The deque, its front first, and the failed comparisons printed. -/
  shadow : Shadow
  /-- The words sent to the collector. -/
  sent : List Message

open Filter

def Filter.init : Filter := { shadow := .init, sent := [] }

/-- `put_queue` to queue `0`, the collector's. -/
def Filter.put (f : Filter) (word : UInt64) (origin : Option Nat) : Filter :=
  { f with sent := f.sent ++ [⟨word, origin⟩] }

/-- The loop at a `Block`: send the deque off from the back. -/
def Filter.flush (f : Filter) : Filter where
  shadow := { f.shadow with stack := [] }
  sent := f.sent ++ f.shadow.stack.reverse.map fun data => ⟨(data <<< 2) &&& 1, none⟩

/-- One turn of the filter's loop. -/
def Filter.step (f : Filter) (i : Input) : Filter :=
  match i.type with
  | .call => { f with shadow := f.shadow.push i.addr }
  | .ret =>
    if f.shadow.stack = [] then f.put (i.addr <<< 2) i.origin
    else { f with shadow := f.shadow.pop i.addr i.origin }
  | _ => f.flush.put ((i.addr <<< 2) &&& 2) none

/-- The filter behind queue `q`, after a run. -/
def filter (start : Queue) (run : List Move) (q : Queue) : Filter :=
  (inputs start run q).foldl step .init

/-! ## The sequential shadow stack -/

/-- One shadow stack for all events. -/
def Shadow.step (s : Shadow) : Move → Shadow
  | .event (.call addr) => s.push addr
  | .event (.ret number addr) => s.pop addr (some number)
  | .block _ => s

/-- The sequential shadow stack after a run. -/
def sequential (run : List Move) : Shadow := run.foldl Shadow.step .init

/-- The return with this number has been reported. -/
def Shadow.Reports (s : Shadow) (number : Nat) : Prop :=
  ∃ r ∈ s.reported, r.origin = some number

/-! ## The whole system -/

/-- The collector on the words of the filters.  A word carries the number of the core that sent it,
and the core behind queue `q` is core `q + 1`. -/
def collect (sent : List (Queue × Message)) : Except Stop Collector :=
  consumeAll .init (sent.map fun a => ((a.1.succ : Core).val, a.2))

/-- Filters and collector end with the sequential stack, the present filter's part of it on top of
the collector's, and report the returns that the sequential stack reports. -/
def MatchesSequential (start : Queue) (run : List Move) (sent : List (Queue × Message)) : Prop :=
  ∃ st, collect sent = .ok st ∧ (filter start run (fed start run)).shadow.stack ++ st.shadow.stack
      = (sequential run).stack ∧
    ∀ n, ((∃ q, (filter start run q).shadow.Reports n) ∨ st.shadow.Reports n) ↔ (sequential run).Reports n

/-! ## The ledger of a run -/

/-- The addresses on the sequential stack: the present filter's own, and the older ones. -/
structure Ledger where
  /-- Pushed since the last `Block`. -/
  own : List UInt64
  /-- Pushed before it. -/
  older : List UInt64

def Ledger.step : Ledger → Move → Ledger
  | ⟨own, older⟩, .event (.call addr) => ⟨addr :: own, older⟩
  | ⟨[], older⟩, .event (.ret _ _) => ⟨[], older.tail⟩
  | ⟨_ :: own, older⟩, .event (.ret _ _) => ⟨own, older⟩
  | ⟨own, older⟩, .block _ => ⟨[], own ++ older⟩

def ledger (run : List Move) : Ledger := run.foldl Ledger.step ⟨[], []⟩

/-- A return whose call is not in its own segment goes to the address the sequential stack has on
top, or to `0` if there is none. -/
def Ledger.Accepts (led : Ledger) : Move → Prop
  | .event (.ret _ addr) => led.own = [] → led.older.headD 0 = addr
  | _ => True

/-- A move on which the filter that is fed sends nothing. -/
def Ledger.Quiet (led : Ledger) : Move → Prop
  | .event (.call _) => True
  | .event (.ret _ _) => led.own ≠ []
  | .block _ => False

instance Ledger.decidableAccepts (led : Ledger) : (m : Move) → Decidable (led.Accepts m)
  | .event (.call _) => isTrue trivial
  | .event (.ret _ addr) => inferInstanceAs (Decidable (led.own = [] → led.older.headD 0 = addr))
  | .block _ => isTrue trivial

instance Ledger.decidableQuiet (led : Ledger) : (m : Move) → Decidable (led.Quiet m)
  | .event (.call _) => isTrue trivial
  | .event (.ret _ _) => inferInstanceAs (Decidable (led.own ≠ []))
  | .block _ => isFalse id

/-- Every return that crosses a segment boundary is accepted. -/
def CrossingsMatch : List Move → Prop :=
  Stepwise.Each fun before m => (ledger before).Accepts m

/-- Core `12`, behind the last queue, has nothing to send. -/
def LastCoreQuiet (start : Queue) : List Move → Prop :=
  Stepwise.Each fun before m => fed start before = 11 → (ledger before).Quiet m

section

variable {start q : Queue} {run : List Move} {m : Move}

theorem ledger_concat : ledger (run ++ [m]) = (ledger run).step m := foldl_concat ..

theorem fed_concat : fed start (run ++ [m]) = m.feeds (fed start run) := foldl_concat ..

theorem sequential_concat : sequential (run ++ [m]) = (sequential run).step m :=
  foldl_concat ..

theorem inputs_concat : inputs start (run ++ [m]) q
    = inputs start run q ++ if q = fed start run then [m.input] else [] := by
  induction run generalizing start with
  | nil => exact append_nil _
  | cons a run ih =>
    rw [cons_append, inputs, inputs, ih, append_assoc]
    rfl

/-- The filter that is fed takes the move. -/
theorem filter_concat_fed : filter start (run ++ [m]) (fed start run)
    = (filter start run (fed start run)).step m.input := by
  rw [filter, inputs_concat, if_pos rfl, foldl_concat, filter]

/-- The other filters do not see it. -/
theorem filter_concat_of_ne (h : q ≠ fed start run) : filter start (run ++ [m]) q = filter start run q := by
  rw [filter, inputs_concat, if_neg h, append_nil, filter]

/-- The present filter holds its own part of the ledger, the others hold nothing. -/
theorem filter_stack : (filter start run q).shadow.stack = if q = fed start run then (ledger run).own else [] := by
  induction run using List.reverseRecOn generalizing q with
  | nil => simp [filter, inputs, ledger, init, Shadow.init]
  | append_singleton run m ih =>
    have hfed : (filter start run (fed start run)).shadow.stack = (ledger run).own := by
      rw [ih, if_pos rfl]
    rw [ledger_concat, fed_concat]
    rcases hled : ledger run with ⟨own, older⟩
    rw [hled] at hfed
    rcases m with (addr | ⟨n, addr⟩) | t
    · -- a call
      by_cases hq : q = fed start run
      · subst hq
        rw [filter_concat_fed]
        simp [input, feeds, step, Shadow.push, Ledger.step, hfed]
      · rw [filter_concat_of_ne hq, ih]
        simp [feeds, hq]
    · -- a return, with or without a call in this segment
      by_cases hq : q = fed start run
      · subst hq
        rw [filter_concat_fed]
        rcases own with - | ⟨top, own⟩
        · simp [input, feeds, step, put, Ledger.step, hfed]
        · simp [input, feeds, step, Shadow.pop, Ledger.step, hfed]
      · rw [filter_concat_of_ne hq, ih]
        simp [feeds, hq]
    · -- a `Block` leaves the filter empty
      by_cases hq : q = fed start run
      · subst hq
        rw [filter_concat_fed]
        simp [input, step, flush, put, Ledger.step]
      · rw [filter_concat_of_ne hq, ih]
        simp [Ledger.step, hq]

/-- The ledger is the sequential stack, cut in two. -/
theorem sequential_stack : (sequential run).stack = (ledger run).own ++ (ledger run).older := by
  induction run using List.reverseRecOn with
  | nil => rfl
  | append_singleton run m ih =>
    rw [sequential_concat, ledger_concat]
    rcases hled : ledger run with ⟨own, older⟩
    rw [hled] at ih
    rcases m with (addr | ⟨n, addr⟩) | t
    · simp [Shadow.step, Shadow.push, Ledger.step, ih]
    · rcases own with - | ⟨top, own⟩
      · simpa [Shadow.step, Shadow.pop, Ledger.step] using congrArg List.tail ih
      · simp [Shadow.step, Shadow.pop, Ledger.step, ih]
    · simp [Shadow.step, Ledger.step, ih]

end

/-! ## What the filters send and report -/

section

variable {start : Queue} {run : List Move} {m : Move} {led : Ledger} {f : Filter} {n : Nat}

theorem Filter.step_sent (h : f.shadow.stack = led.own) : (f.step m.input).sent = [] ↔ f.sent = [] ∧ led.Quiet m := by
  rcases m with (addr | ⟨k, addr⟩) | t
  · simp [input, step, Ledger.Quiet]
  · by_cases hown : led.own = []
    · simp [input, step, put, Ledger.Quiet, h, hown]
    · simp [input, step, Ledger.Quiet, h, hown]
  · simp [input, step, put, Ledger.Quiet]

/-- The last core sends nothing just if it has nothing to send. -/
theorem filter_last_sent : (filter start run 11).sent = [] ↔ LastCoreQuiet start run := by
  induction run using List.reverseRecOn with
  | nil => exact ⟨fun _ => Stepwise.each_nil, fun _ => rfl⟩
  | append_singleton run m ih =>
    rw [LastCoreQuiet, Stepwise.each_concat, ← LastCoreQuiet, ← ih]
    by_cases hfed : fed start run = 11
    · have hst : (filter start run 11).shadow.stack = (ledger run).own := by
        rw [filter_stack, if_pos hfed.symm]
      have hste : filter start (run ++ [m]) 11 = (filter start run 11).step m.input := by
        rw [← hfed, filter_concat_fed]
      rw [hste, step_sent hst]
      simp [hfed]
    · rw [filter_concat_of_ne (Ne.symm hfed)]
      simp [hfed]

variable {addr : UInt64} {s : Shadow} {k : Nat}

@[simp] theorem Shadow.reports_push : (s.push addr).Reports n ↔ s.Reports n := Iff.rfl

@[simp] theorem Shadow.reports_pop : (s.pop addr (some k)).Reports n ↔ s.Reports n ∨ (n = k ∧ s.comp ≠ addr) := by
  rw [Shadow.Reports, Shadow.pop]
  by_cases h : s.comp = addr
  · simp [h, Shadow.Reports]
  · simp [h, Shadow.Reports, or_and_right, exists_or, eq_comm]

/-- The move is a return numbered `n` that the present filter compares and finds wrong. -/
def Ledger.FailsOwn (led : Ledger) (n : Nat) : Move → Prop
  | .event (.ret k addr) => n = k ∧ led.own ≠ [] ∧ led.own.headD 0 ≠ addr
  | _ => False

theorem Filter.step_reports (h : f.shadow.stack = led.own) :
    (f.step m.input).shadow.Reports n ↔ f.shadow.Reports n ∨ led.FailsOwn n m := by
  rcases m with (addr | ⟨k, addr⟩) | t
  · simp [input, step, Ledger.FailsOwn]
  · by_cases hown : led.own = []
    · simp [input, step, put, Ledger.FailsOwn, h, hown]
    · simp [input, step, Ledger.FailsOwn, Shadow.comp, h, hown]
  · simp [input, step, put, flush, Ledger.FailsOwn, Shadow.Reports]

/-- Some filter has reported return `n`. -/
def FiltersReport (start : Queue) (run : List Move) (n : Nat) : Prop :=
  ∃ q, (filter start run q).shadow.Reports n

theorem filtersReport_concat : FiltersReport start (run ++ [m]) n ↔
    FiltersReport start run n ∨ (ledger run).FailsOwn n m := by
  have hst : (filter start run (fed start run)).shadow.stack = (ledger run).own := by
    rw [filter_stack, if_pos rfl]
  have hfed : (filter start (run ++ [m]) (fed start run)).shadow.Reports n ↔
      (filter start run (fed start run)).shadow.Reports n ∨ (ledger run).FailsOwn n m := by
    rw [filter_concat_fed]
    exact step_reports hst
  constructor
  · rintro ⟨q, hq⟩
    by_cases hne : q = fed start run
    · subst hne
      exact (hfed.1 hq).imp_left fun h => ⟨_, h⟩
    · rw [filter_concat_of_ne hne] at hq
      exact .inl ⟨q, hq⟩
  · rintro (⟨q, hq⟩ | hf)
    · refine ⟨q, ?_⟩
      by_cases hne : q = fed start run
      · subst hne
        exact hfed.2 (.inl hq)
      · rwa [filter_concat_of_ne hne]
    · exact ⟨_, hfed.2 (.inr hf)⟩

theorem numbers_concat : numbers (run ++ [m]) = numbers run ++ m.number.toList := by
  rw [numbers, numbers, filterMap_append]
  rcases hm : m.number with - | k <;> simp [hm]

/-- Only returns of the run are reported, by a filter -/
theorem mem_numbers_of_filtersReport (h : FiltersReport start run n) : n ∈ numbers run := by
  induction run using List.reverseRecOn with
  | nil =>
    obtain ⟨q, r, hr, -⟩ := h
    simp [filter, inputs, init, Shadow.init] at hr
  | append_singleton run m ih =>
    rw [numbers_concat, mem_append]
    rcases filtersReport_concat.1 h with h | hf
    · exact .inl (ih h)
    · rcases m with (addr | ⟨k, addr⟩) | t
      · exact hf.elim
      · simp [number, hf.1]
      · exact hf.elim

/-- or by the sequential stack. -/
theorem mem_numbers_of_reports (h : (sequential run).Reports n) : n ∈ numbers run := by
  induction run using List.reverseRecOn with
  | nil =>
    obtain ⟨r, hr, -⟩ := h
    simp [sequential, Shadow.init] at hr
  | append_singleton run m ih =>
    rw [numbers_concat, mem_append]
    rw [sequential_concat] at h
    rcases m with (addr | ⟨k, addr⟩) | t
    · exact .inl (ih h)
    · rcases Shadow.reports_pop.1 h with h | ⟨rfl, -⟩
      · exact .inl (ih h)
      · simp [number]
    · exact .inl (ih h)

/-- Two sets to which a new element may be added agree if they did before and the element is added
to both or to none. -/
theorem forall_or_eq_iff {A B : Nat → Prop} {c c' : Prop} (hA : ¬ A k) (hB : ¬ B k) :
    (∀ n, (A n ∨ (n = k ∧ c)) ↔ (B n ∨ (n = k ∧ c'))) ↔ (∀ n, A n ↔ B n) ∧ (c ↔ c') := by
  constructor
  · intro h
    refine ⟨fun n => ?_, by simpa [hA, hB] using h k⟩
    by_cases hn : n = k
    · subst hn
      simp [hA, hB]
    · simpa [hn] using h n
  · rintro ⟨h, hc⟩ n
    rw [h n, hc]

/-- **The filters report what the sequential stack reports, just if every return that crosses a
segment boundary is accepted.**  A filter forwards such a return and reports nothing itself. -/
theorem filtersReport_iff (hnum : (numbers run).Nodup) :
    (∀ n, FiltersReport start run n ↔ (sequential run).Reports n) ↔ CrossingsMatch run := by
  induction run using List.reverseRecOn with
  | nil =>
    refine ⟨fun _ => Stepwise.each_nil, fun _ n => ⟨fun h => ?_, fun h => ?_⟩⟩
    · exact absurd (mem_numbers_of_filtersReport h) not_mem_nil
    · exact absurd (mem_numbers_of_reports h) not_mem_nil
  | append_singleton run m ih =>
    rw [numbers_concat] at hnum
    rw [CrossingsMatch, Stepwise.each_concat, ← CrossingsMatch, ← ih hnum.of_append_left]
    simp only [filtersReport_concat, sequential_concat]
    rcases m with (addr | ⟨k, addr⟩) | t
    · simp [Ledger.FailsOwn, Shadow.step, Ledger.Accepts]
    · have hk : k ∉ numbers run := by
        intro hmem
        exact (nodup_append.1 hnum).2.2 k hmem k (by simp [number]) rfl
      simp only [Ledger.FailsOwn, Shadow.step, Shadow.reports_pop]
      rw [forall_or_eq_iff (fun h => hk (mem_numbers_of_filtersReport h)) (fun h => hk (mem_numbers_of_reports h))]
      refine and_congr_right fun _ => ?_
      rw [Ledger.Accepts, Shadow.comp, sequential_stack]
      rcases (ledger run).own with - | ⟨top, own⟩ <;> simp [eq_comm]
    · simp [Ledger.FailsOwn, Shadow.step, Ledger.Accepts]

end

/-! ## The collector puts everything aside -/

section

variable {start : Queue} {run : List Move} {sent : List (Queue × Message)} {st st' : Collector}

theorem init_target : Collector.init.currentTarget = 0 := rfl

/-- No filter is core `0`, so no word takes the direct path. -/
theorem consume_waits (ht : st.currentTarget = 0) (q : Queue) (m : Message) :
    consume st (q.succ : Core).val m = index (q.succ : Core).val >>= fun r =>
      .ok { st with queues := update st.queues r (st.queues r ++ [m]) } := by
  have hne : ¬ (((q.succ : Core).val : Nat) : Int) = st.currentTarget := by
    rw [ht, Fin.val_succ]
    omega
  rw [consume, if_neg hne]

/-- Core `12` is outside the array of queues, the other filters are inside. -/
theorem index_succ_eq_ok {q : Queue} : (∃ r, index (q.succ : Core).val = .ok r) ↔ q ≠ 11 := by
  revert q
  decide

theorem consumeAll_waits (ht : st.currentTarget = 0) (h : ∀ a ∈ sent, a.1 ≠ 11) :
    ∃ st', consumeAll st (sent.map fun a => ((a.1.succ : Core).val, a.2)) = .ok st' ∧ st'.shadow = st.shadow := by
  induction sent generalizing st with
  | nil => exact ⟨st, rfl, rfl⟩
  | cons a sent ih =>
    obtain ⟨r, hr⟩ := index_succ_eq_ok.2 (h a mem_cons_self)
    rw [map_cons, consumeAll, consume_waits ht, hr, Fallible.ok_bind, Fallible.ok_bind]
    exact ih ht fun b hb => h b (mem_cons_of_mem a hb)

theorem ne_last_of_consumeAll (ht : st.currentTarget = 0)
    (h : consumeAll st (sent.map fun a => ((a.1.succ : Core).val, a.2)) = .ok st') : ∀ a ∈ sent, a.1 ≠ 11 := by
  induction sent generalizing st with
  | nil => simp
  | cons a sent ih =>
    rw [map_cons, consumeAll, consume_waits ht] at h
    obtain ⟨st₁, h₁, hre⟩ := Fallible.bind_eq_ok.1 h
    obtain ⟨r, hr, hst₁⟩ := Fallible.bind_eq_ok.1 h₁
    cases hst₁
    exact forall_mem_cons.2 ⟨index_succ_eq_ok.1 ⟨r, hr⟩, ih (by exact ht) hre⟩

/-- The collector gets through the words just if core `12` sent none, and then its stack is
empty. -/
theorem collect_eq_ok : (∃ st, collect sent = .ok st) ↔ streams sent 11 = [] := by
  have hem : streams sent 11 = [] ↔ ∀ a ∈ sent, a.1 ≠ 11 := by
    simp [streams, filter_eq_nil_iff]
  rw [hem]
  constructor
  · rintro ⟨st, hst⟩
    exact ne_last_of_consumeAll init_target hst
  · intro h
    obtain ⟨st, hst, -⟩ := consumeAll_waits init_target h
    exact ⟨st, hst⟩

theorem collect_shadow (h : collect sent = .ok st) : st.shadow = .init := by
  obtain ⟨st', hst', hsh⟩ := consumeAll_waits init_target (ne_last_of_consumeAll init_target h)
  obtain rfl : st = st' := Except.ok.inj (h.symm.trans hst')
  exact hsh

/-- **When the parallel shadow stack is the sequential one**: core `12` has nothing to send, every
return without a call in its own segment is accepted by the sequential stack, and nothing pushed
before the last segment is on the stack at the end.  That is, when nothing depends on the
collector. -/
theorem matchesSequential_iff (hnum : (numbers run).Nodup) (hsent : streams sent = fun q => (filter start run q).sent) :
    MatchesSequential start run sent ↔ LastCoreQuiet start run ∧ CrossingsMatch run ∧ (ledger run).older = [] := by
  have hok : (∃ st, collect sent = .ok st) ↔ LastCoreQuiet start run := by
    rw [collect_eq_ok, hsent, filter_last_sent]
  have hown : (filter start run (fed start run)).shadow.stack = (ledger run).own := by
    rw [filter_stack, if_pos rfl]
  have hn : ∀ n, ¬ Shadow.init.Reports n := by
    rintro n ⟨r, hr, -⟩
    exact absurd hr not_mem_nil
  rw [← hok, ← filtersReport_iff hnum]
  constructor
  · rintro ⟨st, hst, hsta, hre⟩
    rw [collect_shadow hst] at hsta hre
    refine ⟨⟨st, hst⟩, fun n => ?_, ?_⟩
    · rw [← hre n, or_iff_left (hn n)]
      rfl
    · rw [hown, sequential_stack] at hsta
      exact (append_cancel_left hsta).symm
  · rintro ⟨⟨st, hst⟩, hre, holder⟩
    refine ⟨st, hst, ?_, fun n => ?_⟩
    · rw [collect_shadow hst, hown, sequential_stack, holder]
      rfl
    · rw [← hre n, collect_shadow hst, or_iff_left (hn n)]
      rfl

end

/-- Thirty-one calls with their returns on core `2`, whose queue is then nearly full; on core `3` a
call, a return to a wrong address and a call. -/
def withinSegments : List Move :=
  (List.range 31).flatMap (fun n => [.event (.call 4), .event (.ret n 4)]) ++
    [.block 2, .event (.call 8), .event (.ret 31 9), .event (.call 8)]

theorem matchesSequential_withinSegments : MatchesSequential 1 withinSegments [(1, ⟨0, none⟩)] := by
  refine (matchesSequential_iff (by decide +kernel) ?_).2 ⟨?_, ?_, by decide +kernel⟩
  · funext q
    revert q
    decide +kernel
  · unfold LastCoreQuiet
    decide +kernel
  · unfold CrossingsMatch
    decide +kernel

/-- The collector's program, on queue `0`, and the filters', on queues `1` and `2`: the
configuration file is `1`, `000000000`, `2`, `000||0000`. -/
def shadowPrograms : List SProgram :=
  [{ map := fun _ => 0, counter := 0, corestart := 0, coreend := 0 },
   { map := fun it => if it = .call ∨ it = .ret then -2 else 0
     counter := 1, corestart := 1, coreend := 2 }]

/-- Sixty-two calls on core `2`, whose queue is then nearly full; the next return, on core `3`, goes
to a wrong address. -/
def acrossSegments : List Move :=
  List.replicate 62 (.event (.call 4)) ++ [.block 2, .event (.ret 0 8)]

/-- The main core commits those calls and the return. -/
def acrossCommits : List SecureLog.Op :=
  .mappersReady :: List.replicate 62 (.filter (.new 0 .call 4 0 0)) ++ [.filter (.new 0 .ret 8 0 0)]

/-- What the filters send for it: for the calls, the switch, and the return. -/
def acrossSent : List (Queue × Message) :=
  List.replicate 63 (1, ⟨0, none⟩) ++ [(2, ⟨32, some 0⟩)]

/-- The log splits the run as `acrossSegments` says, and the sequential stack finds the wrong return
address.  In the parallel version nobody does: the return is put aside with the words before it,
whose tags are gone. -/
theorem return_across_segments_missed :
    (∃ st, SecureLog.Reachable shadowPrograms (fun it => it = .call ∨ it = .ret) 0 st ∧
      ∀ q, (st.handed q).map (fun e => (e.insttype, e.data))
        = (inputs 1 acrossSegments q).map fun i => (i.type, i.addr)) ∧
    (∀ q, streams acrossSent q = (filter 1 acrossSegments q).sent) ∧
    (sequential acrossSegments).reported = [⟨4, 8, some 0⟩] ∧
    ¬ MatchesSequential 1 acrossSegments acrossSent := by
  have hseq : (sequential acrossSegments).reported = [⟨4, 8, some 0⟩] := by decide +kernel
  have hf : ∀ q, (filter 1 acrossSegments q).shadow.reported = [] := by decide +kernel
  refine ⟨Fallible.exists_reaches _ _ _ acrossCommits _ (by decide +kernel), by decide +kernel, hseq, ?_⟩
  rintro ⟨st, hst, -, hre⟩
  rcases (hre 0).2 ⟨⟨4, 8, some 0⟩, by rw [hseq]; simp, rfl⟩ with ⟨q, r, hr, -⟩ | ⟨r, hr, -⟩
  · rw [hf q] at hr
    exact absurd hr not_mem_nil
  · rw [collect_shadow hst] at hr
    exact absurd hr not_mem_nil

end GuardianCouncil.ShadowStack
