import Mathlib.Data.List.Induction
import GuardianCouncil.Lib.Stepwise
import GuardianCouncil.EventQueue.Links

/-!
# The event queue keeps its events in order

What the queue is for is said by `Agenda`, which knows no pointers: a list of the events in the
queue, the most recently inserted first.  An event enters at the front, a removed event leaves,
and the event served is the most recent of those with the least time and priority.

The pointers of the queue always lead to the agenda sorted into bins (`InOrder`).  The events'
pointer fields may hold anything when the queue is empty, and an event may come back with another
time and priority after it has left.
-/

namespace GuardianCouncil.EventQueue

open Bins Function

open List hiding flatten_append flatten_cons

universe u

variable {ι : Type u} [DecidableEq ι]

/-! ## The agenda -/

/-- The events in a queue, without its pointers. -/
structure Agenda (ι : Type u) where
  /-- The events in the queue, the most recently inserted first. -/
  live : List ι
  /-- Their times and priorities. -/
  key : ι → Key
  /-- The events served, in order. -/
  taken : List ι

/-- The event to be served next: the most recent of those that no other comes before. -/
def Agenda.first (a : Agenda ι) : Option ι :=
  a.live.find? fun x => a.live.all fun y => a.key x ≤ a.key y

/-- What an operation does to the agenda. -/
def Agenda.step (a : Agenda ι) : Op ι → Agenda ι
  | .insert event k =>
    { a with live := event :: a.live, key := update a.key event k }
  | .remove event => { a with live := a.live.erase event }
  | .serviceOne =>
    match a.first with
    | none => a
    | some event => { a with live := a.live.erase event, taken := a.taken ++ [event] }

/-- An event is inserted if it is not in the queue, removed if it is, and served if there is
one. -/
def Agenda.Allows (a : Agenda ι) : Op ι → Prop
  | .insert event _ => event ∉ a.live
  | .remove event => event ∈ a.live
  | .serviceOne => a.live ≠ []

/-- The agenda after a sequence of operations on an empty queue. -/
def agenda (st : State ι) (ops : List (Op ι)) : Agenda ι :=
  ops.foldl Agenda.step { live := [], key := st.key, taken := st.serviced }

theorem Agenda.length_step_le (a : Agenda ι) (op : Op ι) : (a.step op).live.length ≤ a.live.length + 1 := by
  rcases op with ⟨event, k⟩ | event | -
  · exact le_rfl
  · exact length_erase_le.trans (Nat.le_succ _)
  · rw [Agenda.step]
    split
    · exact Nat.le_succ _
    · exact length_erase_le.trans (Nat.le_succ _)

/-! ## Operations -/

/-- The queue holds the agenda, sorted into bins. -/
structure InOrder (st : State ι) (a : Agenda ι) (bins : List (Bin ι)) : Prop where
  leads : st.Leads st.head bins
  /-- The bins are the agenda sorted. -/
  sorts : Sorts a.key a.live bins
  /-- The events' times and priorities. -/
  key : st.key = a.key
  /-- The events in the queue belong to it. -/
  queue : ∀ event ∈ a.live, st.queue event = true
  serviced : st.serviced = a.taken

section

variable {st : State ι} {a : Agenda ι} {bins : List (Bin ι)} {event : ι} {n : Nat}

section

variable (h : InOrder st a bins)
include h

theorem InOrder.insert (k : Key) (hnew : event ∉ a.live) (hn : a.live.length ≤ n) :
    ∃ st' bins', (st.setWhen event k).insert n event = .ok st' ∧ InOrder st' (a.step (.insert event k)) bins' := by
  have hso : Sorts (update a.key event k) a.live bins :=
    h.sorts.rekey fun x hx => update_of_ne (ne_of_mem_of_not_mem hx hnew) _ _
  have hkey : (st.setWhen event k).key = update a.key event k := by
    rw [State.setWhen, h.key]
  have hlen : bins.length ≤ n := (length_le_length_flatten bins).trans (h.sorts.length_flatten.trans_le hn)
  have hlea : (st.setWhen event k).Leads (st.setWhen event k).head bins := ⟨h.leads.tops, h.leads.members⟩
  have hf : event ∉ flatten bins := fun he => hnew (hso.mem_flatten.1 he)
  obtain ⟨B, D, st', rfl, hst', hlea, hbe, ha, heq⟩ := State.insert_leads hlea hso.nodup_flatten hf hlen
  rw [hkey] at hlea hbe ha
  refine ⟨st', _, hst', hlea, hso.enter hnew hbe ha, ?_, ?_, ?_⟩
  · rw [heq, hkey]
    rfl
  · intro x hx
    rw [heq]
    rcases mem_cons.1 hx with rfl | hx
    · exact update_self ..
    · exact (update_of_ne (ne_of_mem_of_not_mem hx hnew) _ _).trans (h.queue x hx)
  · rw [heq]
    exact h.serviced

/-- Removing an event leaves the others in their order. -/
theorem InOrder.remove (hev : event ∈ a.live) (hn : a.live.length ≤ n) :
    ∃ st' bins', st.remove n event = .ok st' ∧ InOrder st' (a.step (.remove event)) bins' ∧
      flatten bins' = (flatten bins).erase event := by
  have hso := h.sorts
  rw [← h.key] at hso
  obtain ⟨B, b, C, st', rfl, hmem, hst', hlea, heq⟩ := State.remove_leads h.leads hso hev (h.queue event hev) hn
  refine ⟨st', _, hst', ⟨hlea, h.sorts.remove hmem, ?_, ?_, ?_⟩, h.sorts.flatten_remove hmem⟩
  · rw [heq]
    exact h.key
  · intro x hx
    rw [heq]
    exact h.queue x (mem_of_mem_erase hx)
  · rw [heq]
    exact h.serviced

/-- Serving takes the first event of the agenda, which is the top of the first bin. -/
theorem InOrder.serviceOne (hli : a.live ≠ []) : ∃ b C ret st' bins', bins = b :: C ∧ st.serviceOne = .ok (ret, st') ∧
      InOrder st' (a.step .serviceOne) bins' ∧ flatten bins = b.top :: flatten bins' ∧
      st'.serviced = st.serviced ++ [b.top] := by
  rcases bins with - | ⟨b, C⟩
  · obtain ⟨x, hx⟩ := exists_mem_of_ne_nil _ hli
    obtain ⟨b, hb, -⟩ := h.sorts.content x hx
    exact absurd hb not_mem_nil
  have hfi : a.first = some b.top := h.sorts.find?_eq
  obtain ⟨st', hst', hlea, heq⟩ := State.unlinkHead_leads h.leads h.sorts.nodup_flatten
  have hso : Sorts a.key (a.live.erase b.top) (ofStack (b.members.erase b.top) ++ C) :=
    Sorts.remove (B := []) h.sorts b.top_mem
  have hf : flatten (b :: C) = b.top :: flatten (ofStack (b.members.erase b.top) ++ C) := by
    rw [flatten_append, flatten_ofStack, Bin.members, erase_cons_head, flatten_cons]
    rfl
  rw [Agenda.step, hfi, State.serviceOne, show st.head = some b.top from h.leads.tops.1]
  dsimp only
  rw [hst']
  have hqu : ∀ x ∈ a.live.erase b.top, st'.queue x = true := by
    intro x hx
    rw [heq]
    exact h.queue x (mem_of_mem_erase hx)
  have hkey : st'.key = a.key := by
    rw [heq]
    exact h.key
  have hse : st.serviced ++ [b.top] = a.taken ++ [b.top] := by rw [h.serviced]
  split
  · exact ⟨b, C, _, _, _, rfl, rfl, ⟨⟨hlea.tops, hlea.members⟩, hso, hkey, hqu, hse⟩, hf, rfl⟩
  · exact ⟨b, C, _, _, _, rfl, rfl, ⟨⟨hlea.tops, hlea.members⟩, hso, hkey, hqu, hse⟩, hf, rfl⟩

/-- **Every operation keeps the queue in order.** -/
theorem InOrder.step {op : Op ι} (hop : a.Allows op) (hn : a.live.length ≤ n) :
    ∃ st' bins', st.step n op = .ok st' ∧ InOrder st' (a.step op) bins' := by
  rcases op with ⟨event, k⟩ | event | -
  · exact h.insert k hop hn
  · obtain ⟨st', bins', hst', h', -⟩ := h.remove hop hn
    exact ⟨st', bins', hst', h'⟩
  · obtain ⟨-, -, ret, st', bins', -, hst', h', -⟩ := h.serviceOne hop
    refine ⟨st', bins', ?_, h'⟩
    rw [State.step, hst', Fallible.ok_bind]

/-- So does every sequence of operations. -/
theorem InOrder.run {ops : List (Op ι)}
    (hops : Stepwise.Each (fun before op => (before.foldl Agenda.step a).Allows op) ops)
    (hn : a.live.length + ops.length ≤ n) :
    ∃ st' bins', st.run n ops = .ok st' ∧ InOrder st' (ops.foldl Agenda.step a) bins' := by
  induction ops generalizing st a bins with
  | nil => exact ⟨st, bins, rfl, h⟩
  | cons op ops ih =>
    obtain ⟨hop, hre⟩ := Stepwise.each_cons.1 hops
    rw [length_cons] at hn
    obtain ⟨st₁, bins₁, hst₁, h₁⟩ := h.step hop (by omega : a.live.length ≤ n)
    have hlen := a.length_step_le op
    obtain ⟨st', bins', hst', h'⟩ := ih h₁ hre (by omega)
    exact ⟨st', bins', by rw [State.run, hst₁, Fallible.ok_bind, hst'], h'⟩

end

end

/-! ## The order of the queue -/

/-- What is to hold between operations: the pointers lead to bins that hold the agenda, in order,
and the next operation does what the agenda says. -/
structure KeepsOrder (n : Nat) (st : State ι) (a : Agenda ι) (bins : List (Bin ι)) : Prop where
  leads : st.Leads st.head bins
  /-- The events in the bins are the events on the agenda. -/
  content : ∀ event, event ∈ flatten bins ↔ event ∈ a.live
  /-- No event is in the bins twice. -/
  once : (flatten bins).Nodup
  /-- The bins increase in time and priority. -/
  increasing : bins.Pairwise fun b c => ∀ x ∈ b.members, ∀ y ∈ c.members, st.key x < st.key y
  /-- A bin is the stack of the events with its time and priority, the most recent on top. -/
  stack : ∀ b ∈ bins, b.members = a.live.filter fun x => st.key x = st.key b.top
  /-- The events served so far are those that the agenda says. -/
  serviced : st.serviced = a.taken
  /-- Serving takes the event with the least time and priority, the most recent among equals. -/
  serves : a.live ≠ [] → ∃ event ret st' bins', st.serviceOne = .ok (ret, st') ∧
    st'.serviced = st.serviced ++ [event] ∧ st'.Leads st'.head bins' ∧
    flatten bins = event :: flatten bins' ∧ (∀ x ∈ a.live, st.key event ≤ st.key x) ∧
    (a.live.filter fun x => st.key x = st.key event).head? = some event
  /-- Removing an event of the queue succeeds and leaves the others in their order. -/
  removes : ∀ event ∈ a.live, ∃ st' bins', st.remove n event = .ok st' ∧
    st'.Leads st'.head bins' ∧ flatten bins' = (flatten bins).erase event

theorem InOrder.keepsOrder {st : State ι} {a : Agenda ι} {bins : List (Bin ι)} {n : Nat}
    (h : InOrder st a bins) (hn : a.live.length ≤ n) : KeepsOrder n st a bins where
  leads := h.leads
  content := fun _ => h.sorts.mem_flatten
  once := h.sorts.nodup_flatten
  increasing := by
    rw [h.key]
    refine h.sorts.increasing.imp_of_mem fun {b c} hb hc hlt x hx y hy => ?_
    rwa [((h.sorts.mem_members hb).1 hx).2, ((h.sorts.mem_members hc).1 hy).2]
  stack := by
    rw [h.key]
    exact h.sorts.stack
  serviced := h.serviced
  serves := by
    intro hli
    obtain ⟨b, C, ret, st', bins', rfl, hst', h', hf, hse⟩ := h.serviceOne hli
    rw [h.key]
    refine ⟨b.top, ret, st', bins', hst', hse, h'.leads, hf, fun x hx => h.sorts.top_le hx, ?_⟩
    rw [← h.sorts.stack b mem_cons_self]
    rfl
  removes := by
    intro event hev
    obtain ⟨st', bins', hst', h', hf⟩ := h.remove hev hn
    exact ⟨st', bins', hst', h'.leads, hf⟩

theorem length_agenda_le (st : State ι) (ops : List (Op ι)) : (agenda st ops).live.length ≤ ops.length := by
  induction ops using List.reverseRecOn with
  | nil => exact le_rfl
  | append_singleton ops op ih =>
    rw [agenda, foldl_concat, length_append, length_singleton]
    exact (Agenda.length_step_le _ op).trans (Nat.add_le_add_right ih 1)

/-- An empty queue is in order, whatever the events' fields are. -/
theorem inOrder_empty {st : State ι} (hem : st.head = none) : InOrder st (agenda st []) [] where
  leads := ⟨hem, by simp⟩
  sorts := ⟨nodup_nil, List.Pairwise.nil, by simp, by simp [agenda]⟩
  key := rfl
  queue := by simp [agenda]
  serviced := rfl

/-- **The event queue keeps its events in order**, from any empty queue and through any sequence of
operations that the agenda allows.  As many iterations as there are operations are enough for the
loops. -/
theorem eventQueue_keepsOrder {st : State ι} (hempty : st.head = none) {ops : List (Op ι)}
    (hops : Stepwise.Each (fun before op => (agenda st before).Allows op) ops) {n : Nat} (hn : ops.length ≤ n) :
    ∃ st' bins, st.run n ops = .ok st' ∧ KeepsOrder n st' (agenda st ops) bins := by
  obtain ⟨st', bins, hst', h⟩ := (inOrder_empty hempty).run hops (by simpa [agenda] using hn)
  exact ⟨st', bins, hst', h.keepsOrder ((length_agenda_le st ops).trans hn)⟩

instance Agenda.decidableAllows (a : Agenda ι) : (op : Op ι) → Decidable (a.Allows op)
  | .insert _ _ => inferInstanceAs (Decidable (_ ∉ _))
  | .remove _ => inferInstanceAs (Decidable (_ ∈ _))
  | .serviceOne => inferInstanceAs (Decidable (_ ≠ []))

/-- An empty queue whose events hold stale pointers. -/
def stale : State Nat where
  head := none
  nextBin := fun _ => some 0
  nextInBin := fun _ => some 1
  key := fun _ => ⟨0, 0⟩
  queue := fun _ => false
  scheduled := fun _ => false
  squashed := fun _ => false
  isExitEvent := fun _ => false
  curTick := 0
  serviced := []

/-- Three events at one time and one before it; one of the three is removed from the middle of its
bin, and two events are served. -/
def fourEvents : List (Op Nat) :=
  [.insert 0 ⟨5, 0⟩, .insert 1 ⟨5, 0⟩, .insert 2 ⟨3, -1⟩, .insert 3 ⟨5, 0⟩, .remove 1, .serviceOne, .serviceOne]

theorem eventQueue_keepsOrder_fourEvents :
    (agenda stale fourEvents).live = [0] ∧ (agenda stale fourEvents).taken = [2, 3] ∧
    ∃ st bins, stale.run 7 fourEvents = .ok st ∧ KeepsOrder 7 st (agenda stale fourEvents) bins :=
  ⟨by decide +kernel, by decide +kernel, eventQueue_keepsOrder rfl (by decide +kernel) (by decide)⟩

end GuardianCouncil.EventQueue
