import Mathlib.Data.Int.Interval
import GuardianCouncil.Lib.Fallible

/-!
# Pipeline buffers

A `TimeBuffer` has a slot for each cycle from `past` cycles ago to `future` cycles ahead.  The slots are a ring: when time
advances, the oldest one is recycled for the newest cycle.  Here the buffer is compared with an unbounded history, which
maps a cycle to what was last written for it.

A `SelfStallingPipeline` is such a buffer with no future.  Elements are pushed into the slot of the present cycle, and
`front` is the slot of `depth` cycles ago.  It does not advance while an element is at its front, unless the flag that
says so is cleared.
-/

namespace GuardianCouncil.Minor

open Fallible List Function

/-- The assertions. -/
inductive BufferPanic where
  | invalidOffset
  | alreadyPushed
  deriving DecidableEq

variable {T : Type*}

structure TimeBuffer (T : Type*) where
  past : ℕ
  future : ℕ
  data : ℤ → T
  base : ℤ

namespace TimeBuffer

variable (buf : TimeBuffer T)

def size : ℤ := buf.past + buf.future + 1

/-- A new buffer; `init` is a default-constructed element. -/
def new (init : T) (past future : ℕ) : TimeBuffer T := { past, future, data := fun _ => init, base := 0 }

def Valid (idx : ℤ) : Prop := -buf.past ≤ idx ∧ idx ≤ buf.future
deriving Decidable

theorem valid_zero : buf.Valid 0 := ⟨by omega, by omega⟩

def calculateVectorIndex (idx : ℤ) : ℤ :=
  let vector_index := idx + buf.base
  if vector_index ≥ buf.size then vector_index - buf.size
  else if vector_index < 0 then vector_index + buf.size
  else vector_index

def access (idx : ℤ) : T := buf.data (buf.calculateVectorIndex idx)

def write (idx : ℤ) (elem : T) : TimeBuffer T :=
  { buf with data := update buf.data (buf.calculateVectorIndex idx) elem }

def advance (init : T) : TimeBuffer T :=
  let base := if buf.base + 1 ≥ buf.size then 0 else buf.base + 1
  let ptr := base + buf.future
  let ptr := if ptr ≥ buf.size then ptr - buf.size else ptr
  { buf with base, data := update buf.data ptr init }

/-- The buffer is a window on a history, at a time. -/
structure Shows (buf : TimeBuffer T) (time : ℤ) (history : ℤ → T) : Prop where
  base : 0 ≤ buf.base ∧ buf.base < buf.size
  slot : ∀ idx, buf.Valid idx → buf.access idx = history (time + idx)

variable {buf} {init elem : T} {time idx : ℤ} {history : ℤ → T}

theorem shows_new (past future : ℕ) : Shows (new init past future) 0 fun _ => init :=
  ⟨⟨le_rfl, by simp only [size, new]; omega⟩, fun _ _ => rfl⟩

theorem Shows.write (h : Shows buf time history) (hidx : buf.Valid idx) (elem : T) :
    Shows (buf.write idx elem) time (update history (time + idx) elem) where
  base := h.base
  slot idx' hidx' := by
    show update buf.data _ elem (buf.calculateVectorIndex idx') = _
    by_cases heq : idx' = idx
    · rw [heq, update_self, update_self]
    -- two cycles of the window have different slots
    have hne : buf.calculateVectorIndex idx' ≠ buf.calculateVectorIndex idx := by
      have hba := h.base
      unfold Valid at hidx
      have hidx' : -buf.past ≤ idx' ∧ idx' ≤ buf.future := hidx'
      unfold calculateVectorIndex size
      unfold size at hba
      dsimp only
      split_ifs <;> omega
    rw [update_of_ne hne, update_of_ne (by omega)]
    exact h.slot idx' hidx'

theorem Shows.advance (h : Shows buf time history) (init : T) :
    Shows (buf.advance init) (time + 1) (update history (time + 1 + buf.future) init) := by
  have hba := h.base
  unfold size at hba
  -- the slot of a cycle is where it was, but for the newest one, which takes that of the oldest
  have hin : ∀ idx, buf.Valid idx → (buf.advance init).access idx =
      if idx = buf.future then init else buf.access (idx + 1) := by
    intro idx hidx
    unfold Valid at hidx
    unfold access TimeBuffer.advance
    dsimp only
    rw [update_apply]
    unfold calculateVectorIndex size
    dsimp only
    split_ifs <;> first | rfl | omega | (congr 1; omega)
  refine ⟨?_, fun idx hidx => ?_⟩
  · unfold TimeBuffer.advance size
    dsimp only
    split_ifs <;> omega
  · have hidx : buf.Valid idx := hidx
    rw [hin idx hidx]
    split_ifs with hla
    · rw [hla, update_self]
    · have hnext : buf.Valid (idx + 1) := by
        unfold Valid at hidx ⊢
        omega
      rw [update_of_ne (by omega), h.slot _ hnext, show time + 1 + idx = time + (idx + 1) by omega]

/-! ### Runs -/

inductive Op (T : Type*) where
  | write (idx : ℤ) (elem : T)
  | advance

/-- A buffer, the time, and what was last written for each cycle, if anything. -/
structure Run (T : Type*) where
  buf : TimeBuffer T
  time : ℤ := 0
  written : ℤ → Option T := fun _ => none

def Run.step (init : T) (run : Run T) : Op T → Except BufferPanic (Run T)
  | .write idx elem =>
    if ¬ run.buf.Valid idx then .error .invalidOffset
    else .ok { run with
      buf := run.buf.write idx elem
      written := update run.written (run.time + idx) (some elem) }
  | .advance => .ok { run with buf := run.buf.advance init, time := run.time + 1 }

/-- The buffer shows what was written, and nothing was written for cycles beyond its end. -/
theorem Run.shows (init : T) (past future : ℕ) {run : Run T}
    (h : Reaches (Run.step init) (fun _ _ => True) { buf := new init past future } run) :
    Shows run.buf run.time (fun cycle => (run.written cycle).getD init) ∧
      run.buf.past = past ∧ run.buf.future = future ∧ ∀ cycle : ℤ, run.time + future < cycle → run.written cycle = none := by
  refine h.invariant (P := fun run => Shows run.buf run.time (fun cycle => (run.written cycle).getD init) ∧
    run.buf.past = past ∧ run.buf.future = future ∧ ∀ cycle : ℤ, run.time + future < cycle → run.written cycle = none)
    ⟨shows_new past future, rfl, rfl, fun _ _ => rfl⟩ ?_
  rintro run run' op - ⟨hsh, hpa, hf, ha⟩ - hs
  cases op with
  | write idx elem =>
    rw [Run.step, check_eq_ok] at hs
    obtain ⟨hv, hs⟩ := hs
    cases hs
    have hv := not_not.1 hv
    refine ⟨?_, hpa, hf, fun cycle hcy => ?_⟩
    · convert hsh.write hv elem using 2 with cycle
      simp only [update_apply]
      split <;> rfl
    · have := hf ▸ hv.2
      dsimp only at hcy ⊢
      rw [update_of_ne (by omega)]
      exact ha cycle hcy
  | advance =>
    cases hs
    have hnew : init = (run.written (run.time + 1 + run.buf.future)).getD init := by
      rw [ha _ (by omega), Option.getD_none]
    have hnext := hsh.advance init
    rw [update_eq_self_iff.2 hnew] at hnext
    exact ⟨hnext, hpa, hf, fun cycle hcy => ha cycle (by dsimp only at hcy; omega)⟩

end TimeBuffer

/-! ## The pipeline -/

structure SelfStallingPipeline (T : Type*) where
  buf : TimeBuffer T
  stalled : Bool := false
  occupancy : ℕ := 0

namespace SelfStallingPipeline

variable (isBubble : T → Bool) (bubble init : T) (pipe : SelfStallingPipeline T)

/-- The loop of the constructor, which writes bubbles to the first slots. -/
def filled (depth : ℕ) : ℕ → TimeBuffer T
  | 0 => TimeBuffer.new init depth 0
  | i + 1 => (filled depth i).write (-i) bubble

def new (depth : ℕ) : SelfStallingPipeline T := { buf := filled bubble init depth (depth + 1) }

def front : T := pipe.buf.access (-pipe.buf.past)

def alreadyPushed : Bool := !isBubble (pipe.buf.access 0)

def isPopable : Bool := !isBubble pipe.front

def push (elem : T) : Except BufferPanic (SelfStallingPipeline T) :=
  if pipe.alreadyPushed isBubble then .error .alreadyPushed
  else .ok { pipe with
    buf := pipe.buf.write 0 elem
    occupancy := if isBubble elem then pipe.occupancy else pipe.occupancy + 1 }

def advance : SelfStallingPipeline T :=
  let data_at_end := pipe.isPopable isBubble
  if pipe.stalled then pipe
  else
    let buf := pipe.buf.advance init
    let pipe : SelfStallingPipeline T :=
      { buf, occupancy := if data_at_end then pipe.occupancy - 1 else pipe.occupancy }
    { pipe with stalled := pipe.isPopable isBubble, buf := buf.write 0 bubble }

inductive Op (T : Type*) where
  | push (elem : T)
  | advance
  | clearStall

/-- A pipeline, the number of advances that took effect, what was pushed in each cycle, and whether the stall has been
cleared since the last of these advances. -/
structure Run (T : Type*) where
  pipe : SelfStallingPipeline T
  time : ℤ := 0
  pushed : ℤ → T
  cleared : Bool := false

def Run.start (depth : ℕ) : Run T := { pipe := new bubble init depth, pushed := fun _ => bubble }

def Run.step (run : Run T) : Op T → Except BufferPanic (Run T)
  | .push elem => do
    let pipe ← run.pipe.push isBubble elem
    .ok { run with pipe, pushed := update run.pushed run.time elem }
  | .advance =>
    let pipe := run.pipe.advance isBubble bubble init
    if run.pipe.stalled then .ok { run with pipe }
    else .ok { run with pipe, time := run.time + 1, cleared := false }
  | .clearStall => .ok { run with pipe := { run.pipe with stalled := false }, cleared := true }

/-- What a pipeline does: the slots hold what was pushed in the last `depth` cycles, and `occupancy` counts the elements
in them.  While one is at the front, the pipeline is stalled unless that was cleared.  Only a push is ever refused, and
only if something other than a bubble has been pushed since the last advance that took effect. -/
structure Run.Delivers (depth : ℕ) (run : Run T) : Prop where
  accepts : ∀ op, (∃ run', run.step isBubble bubble init op = .ok run') ↔
    ∀ elem, op = .push elem → isBubble (run.pushed run.time) = true
  slot : ∀ n : ℕ, n ≤ depth → run.pipe.buf.access (-n) = run.pushed (run.time - n)
  front : run.pipe.front = run.pushed (run.time - depth)
  kept : isBubble run.pipe.front = false → run.pipe.stalled = true ∨ run.cleared = true
  occupancy : run.pipe.occupancy = (List.range (depth + 1)).countP fun n : ℕ => !isBubble (run.pipe.buf.access (-n))

variable {isBubble bubble init} {depth : ℕ} {run run' : Run T}

/-- The buffer shows what was pushed, and nothing has been pushed for later cycles. -/
structure Run.Inv (isBubble : T → Bool) (bubble : T) (depth : ℕ) (run : Run T) : Prop where
  past : run.pipe.buf.past = depth
  future : run.pipe.buf.future = 0
  shows : run.pipe.buf.Shows run.time run.pushed
  ahead : ∀ cycle, run.time < cycle → run.pushed cycle = bubble
  kept : isBubble (run.pushed (run.time - depth)) = false → run.pipe.stalled = true ∨ run.cleared = true
  occupancy : run.pipe.occupancy = (List.range (depth + 1)).countP fun n : ℕ => !isBubble (run.pushed (run.time - n))

namespace Run.Inv

section

variable (h : run.Inv isBubble bubble depth)
include h

theorem slot {n : ℕ} (hn : n ≤ depth) : run.pipe.buf.access (-n) = run.pushed (run.time - n) :=
  h.shows.slot _ ⟨by rw [h.past]; omega, by omega⟩

theorem front_eq : run.pipe.front = run.pushed (run.time - depth) := by
  rw [front, h.past]
  exact h.slot le_rfl

theorem alreadyPushed_eq : run.pipe.alreadyPushed isBubble = !isBubble (run.pushed run.time) := by
  have hslot := h.slot (Nat.zero_le depth)
  rw [Nat.cast_zero, neg_zero, sub_zero] at hslot
  rw [alreadyPushed, hslot]

end

theorem start (hbu : isBubble bubble = true) (depth : ℕ) : (Run.start bubble init depth).Inv isBubble bubble depth := by
  have hfi : ∀ k ≤ depth + 1, (filled bubble init depth k).past = depth ∧ (filled bubble init depth k).future = 0 ∧
      (filled bubble init depth k).Shows 0 fun cycle => if -k < cycle then bubble else init := by
    intro k
    induction k with
    | zero =>
      refine fun _ => ⟨rfl, rfl, (TimeBuffer.shows_new depth 0).base, fun idx hidx => ?_⟩
      have : idx ≤ (0 : ℕ) := hidx.2
      rw [if_neg (by omega)]
      rfl
    | succ k ih =>
      intro hk
      obtain ⟨hpa, hf, hsh⟩ := ih (by omega)
      refine ⟨hpa, hf, ?_⟩
      have hv : (filled bubble init depth k).Valid (-k) := ⟨by rw [hpa]; omega, by omega⟩
      convert hsh.write hv bubble using 1
      · rfl
      · funext cycle
        rw [update_apply]
        split_ifs <;> first | rfl | omega
  obtain ⟨hpa, hf, hsh⟩ := hfi (depth + 1) le_rfl
  refine ⟨hpa, hf, ⟨hsh.base, fun idx hidx => (hsh.slot idx hidx).trans (if_pos ?_)⟩, fun _ _ => rfl, ?_, ?_⟩
  · have := hpa ▸ hidx.1
    omega
  · exact fun hfr => by simp [Run.start, hbu] at hfr
  · simp [Run.start, new, hbu]

section

variable (h : run.Inv isBubble bubble depth)
include h

theorem push {elem : T} (hd : 1 ≤ depth)
    (hs : run.step isBubble bubble init (.push elem) = .ok run') : run'.Inv isBubble bubble depth := by
  rw [Run.step] at hs
  obtain ⟨pipe, hpu, hs⟩ := bind_eq_ok.1 hs
  rw [SelfStallingPipeline.push, check_eq_ok] at hpu
  obtain ⟨hfree, hpu⟩ := hpu
  cases hpu
  cases hs
  have hem : isBubble (run.pushed run.time) = true := by simpa [h.alreadyPushed_eq] using hfree
  have ho : ∀ cycle, cycle ≠ run.time → update run.pushed run.time elem cycle = run.pushed cycle :=
    fun cycle hne => update_of_ne hne ..
  have hsh := h.shows.write (TimeBuffer.valid_zero _) elem
  rw [add_zero] at hsh
  refine ⟨h.past, h.future, hsh, fun cycle hcy => ?_, ?_, ?_⟩
  · exact (ho cycle (by dsimp only at hcy; omega)).trans (h.ahead cycle hcy)
  · dsimp only
    rw [ho _ (by omega)]
    exact h.kept
  · have hocc := h.occupancy
    rw [range_succ_eq_map, countP_cons, countP_map] at hocc ⊢
    have hold : ∀ n : ℕ, update run.pushed run.time elem (run.time - (n + 1 : ℕ)) =
        run.pushed (run.time - (n + 1 : ℕ)) := fun n => ho _ (by omega)
    simp only [Function.comp_def, Nat.succ_eq_add_one, hold, Nat.cast_zero, sub_zero, update_self, hem] at hocc ⊢
    rw [hocc]
    cases isBubble elem <;> simp

theorem advance (hbu : isBubble bubble = true) (hd : 1 ≤ depth)
    (hs : run.step isBubble bubble init .advance = .ok run') : run'.Inv isBubble bubble depth := by
  rw [Run.step, SelfStallingPipeline.advance] at hs
  dsimp only at hs
  by_cases hst : run.pipe.stalled = true
  · rw [if_pos hst, if_pos hst] at hs
    cases hs
    exact h
  rw [if_neg hst, if_neg hst] at hs
  cases hs
  have hnew : run.pushed (run.time + 1) = bubble := h.ahead _ (by omega)
  have hnext := h.shows.advance init
  rw [h.future, Nat.cast_zero, add_zero] at hnext
  -- the slot of the new cycle is made a bubble
  have hsh := hnext.write (TimeBuffer.valid_zero _) bubble
  rw [add_zero, update_idem, update_eq_self_iff.2 hnew.symm] at hsh
  have hend : (run.pipe.buf.advance init).access (-(run.pipe.buf.advance init).past) =
      run.pushed (run.time + 1 - depth) := by
    rw [hnext.slot _ ⟨le_rfl, by omega⟩, show (run.pipe.buf.advance init).past = depth from h.past,
      update_of_ne (by omega), Int.sub_eq_add_neg]
  refine ⟨h.past, h.future, hsh, fun cycle hcy => h.ahead cycle (by dsimp only at hcy; omega), fun hf => ?_, ?_⟩
  · dsimp only [isPopable, front] at hf ⊢
    rw [hend, hf]
    exact .inl rfl
  · -- the new slot is a bubble, and the last one is gone
    have hocc := h.occupancy
    have hshi : ∀ n : ℕ, run.time + 1 - ((n + 1 : ℕ) : ℤ) = run.time - n := fun n => by omega
    have hpop : run.pipe.isPopable isBubble = !isBubble (run.pushed (run.time - depth)) := by rw [isPopable, h.front_eq]
    rw [range_succ, countP_append, countP_singleton] at hocc
    rw [range_succ_eq_map, countP_cons, countP_map]
    simp only [hpop, hocc, Function.comp_def, Nat.succ_eq_add_one, hshi, Nat.cast_zero, sub_zero, hnew, hbu]
    cases isBubble (run.pushed (run.time - depth)) <;> simp

theorem accepts (op : Op T) : (∃ run', run.step isBubble bubble init op = .ok run') ↔
      ∀ elem, op = .push elem → isBubble (run.pushed run.time) = true := by
  cases op with
  | push elem =>
    rw [Run.step, SelfStallingPipeline.push, h.alreadyPushed_eq]
    cases isBubble (run.pushed run.time) <;> simp
  | advance =>
    refine iff_of_true ?_ nofun
    rw [Run.step]
    split
    · exact ⟨_, rfl⟩
    · exact ⟨_, rfl⟩
  | clearStall => exact iff_of_true ⟨_, rfl⟩ nofun

end

end Run.Inv

theorem Run.inv_of_reaches (hbu : isBubble bubble = true) (hd : 1 ≤ depth)
    (h : Reaches (Run.step isBubble bubble init) (fun _ _ => True) (Run.start bubble init depth) run) :
    run.Inv isBubble bubble depth := by
  refine h.invariant (P := Run.Inv isBubble bubble depth) (.start hbu depth) ?_
  intro run run' op _ ih _ hs
  cases op with
  | push elem => exact ih.push hd hs
  | advance => exact ih.advance hbu hd hs
  | clearStall =>
    cases hs
    exact ⟨ih.past, ih.future, ih.shows, ih.ahead, fun _ => .inr rfl, ih.occupancy⟩

end SelfStallingPipeline

/-- A time buffer shows what was last written for each cycle of its window, and a pipeline delivers what was pushed
`depth` effective advances ago, refusing nothing but a second element between two of them. -/
theorem buffers_show_history {isBubble : T → Bool} {bubble : T} (hbubble : isBubble bubble = true) (init : T) :
    (∀ past future run, Reaches (TimeBuffer.Run.step init) (fun _ _ => True)
      { buf := TimeBuffer.new init past future } run →
      ∀ idx : ℤ, -past ≤ idx → idx ≤ future → run.buf.access idx = (run.written (run.time + idx)).getD init) ∧
    ∀ depth run, 1 ≤ depth → Reaches (SelfStallingPipeline.Run.step isBubble bubble init) (fun _ _ => True)
      (SelfStallingPipeline.Run.start bubble init depth) run → run.Delivers isBubble bubble init depth := by
  refine ⟨fun past future run h idx hlow hhigh => ?_, fun depth run hd h => ?_⟩
  · obtain ⟨hsh, hpa, hf, -⟩ := TimeBuffer.Run.shows init past future h
    exact hsh.slot idx ⟨hpa ▸ hlow, hf ▸ hhigh⟩
  · have hinv := SelfStallingPipeline.Run.inv_of_reaches hbubble hd h
    refine ⟨hinv.accepts, fun n hn => hinv.slot hn, hinv.front_eq, fun hfr => hinv.kept (hinv.front_eq ▸ hfr), ?_⟩
    rw [hinv.occupancy]
    refine countP_congr fun n hn => ?_
    rw [hinv.slot (by have := mem_range.1 hn; omega)]

/-- An element that was pushed is at the front of a pipeline of depth 2 after two advances, and stays there. -/
theorem buffers_show_history_two : ∃ run : SelfStallingPipeline.Run (Option ℕ),
    Reaches (SelfStallingPipeline.Run.step Option.isNone none none) (fun _ _ => True)
      (SelfStallingPipeline.Run.start none none 2) run ∧
    (run.pipe.front = some 7 ∧ run.pipe.stalled = true) ∧ run.Delivers Option.isNone none none 2 := by
  obtain ⟨run, h, hrun⟩ := exists_reaches (SelfStallingPipeline.Run.step (T := Option ℕ) Option.isNone none none)
    (fun _ _ => True) (SelfStallingPipeline.Run.start none none 2) [.push (some 7), .advance, .advance, .advance]
    (fun run => run.pipe.front = some 7 ∧ run.pipe.stalled = true) (by decide +kernel)
  exact ⟨run, h, hrun, (buffers_show_history rfl none).2 2 run (by decide) h⟩

/-- While the pipeline is stalled an advance does not make room: one element is pushed before it, and another one cannot
be pushed after it. -/
theorem push_refused : ∃ run : SelfStallingPipeline.Run (Option ℕ),
    Reaches (SelfStallingPipeline.Run.step Option.isNone none none) (fun _ _ => True)
      (SelfStallingPipeline.Run.start none none 1) run ∧
    run.step Option.isNone none none (.push (some 3)) = .error .alreadyPushed :=
  exists_reaches (SelfStallingPipeline.Run.step (T := Option ℕ) Option.isNone none none) (fun _ _ => True)
    (SelfStallingPipeline.Run.start none none 1) [.push (some 1), .advance, .push (some 2), .advance] _ (by decide +kernel)

end GuardianCouncil.Minor
