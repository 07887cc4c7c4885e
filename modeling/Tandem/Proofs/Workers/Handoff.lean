import Tandem.Proofs.Workers.Diamond
import Tandem.Simulation.Compute
import Mathlib.Data.List.Basic

/-!
# How the workers of a phase get their work

Both phases of a step begin alike. The coordinator opens a line to one worker after the other and starts the
worker, which waits on its line. When all are started it goes through the lines again, sends on each what the
worker is to do, and hangs up. A worker that found its line cut before anything came would report so. However
the moves of the coordinator and of the workers are interleaved, none ever finds it cut.
-/

namespace Tandem

/-- Where the line of one worker stands. -/
inductive Line where
  | unopened
  | open
  | full
  /-- The coordinator has hung up and has sent nothing. -/
  | cut
  | received
  | missed
  deriving DecidableEq

/-- What the coordinator does, one after the other, to the line of a worker. -/
inductive Order where
  | start (worker : Nat)
  | send (worker : Nat)
  | hangUp (worker : Nat)
  deriving DecidableEq

namespace Order

def worker : Order → Nat
  | start worker => worker
  | send worker => worker
  | hangUp worker => worker

def stage : Order → Nat
  | start _ => 0
  | send _ => 1
  | hangUp _ => 2

/-- The order stands behind all earlier ones to the same worker. -/
def Before (first second : Order) : Prop := first.worker = second.worker → first.stage < second.stage

end Order

namespace Line

def obey : Order → Line → Line
  | .start _, unopened => .open
  | .send _, .open => full
  | .hangUp _, .open => cut
  | _, line => line

def isOver : Line → Bool
  | received => true
  | missed => true
  | _ => false

def failure (leader : String) (work : Option Stop) : Line → Option Stop
  | received => work
  | missed => some (.fault (.workerUnreached leader))
  | _ => none

theorem isOver_obey (order : Order) (line : Line) : (line.obey order).isOver = line.isOver := by
  cases order <;> cases line <;> rfl

end Line

/-- The orders that are left, and the lines by worker. -/
structure Handoff where
  orders : List Order
  lines : List Line

namespace Handoff

/-- Start all workers, then send to each and hang up. -/
def start (workers : Nat) : Handoff where
  orders := (List.range workers).map Order.start ++
    (List.range workers).flatMap fun g => [.send g, .hangUp g]
  lines := List.replicate workers .unopened

/-- The coordinator carries out its next order, or a worker looks at its line. -/
inductive Move : Handoff → Handoff → Prop
  | order {first : Order} {rest : List Order} {lines : List Line} {line : Line}
      (h : lines[first.worker]? = some line) :
      Move ⟨first :: rest, lines⟩ ⟨rest, lines.set first.worker (line.obey first)⟩
  | receive {orders : List Order} {lines : List Line} {g : Nat} (h : lines[g]? = some .full) :
      Move ⟨orders, lines⟩ ⟨orders, lines.set g .received⟩
  | miss {orders : List Order} {lines : List Line} {g : Nat} (h : lines[g]? = some .cut) :
      Move ⟨orders, lines⟩ ⟨orders, lines.set g .missed⟩

def failures (handoff : Handoff) (leaders : List String) (work : List (Option Stop)) :
    List (Option Stop) :=
  handoff.lines.mapIdx fun g line => line.failure (leaders.getD g "") (work[g]?).join

/-! ## What every move keeps -/

/-- What is still to be ordered for a line, wherever it stands. No clause speaks of lines that are cut. -/
inductive Due (orders : List Order) (g : Nat) : Line → Prop
  | unopened (hstart : .start g ∈ orders) (hsend : .send g ∈ orders) : Due orders g .unopened
  | open (hsend : .send g ∈ orders) : Due orders g .open
  | full (hsend : .send g ∉ orders) : Due orders g .full
  | received (hsend : .send g ∉ orders) : Due orders g .received

structure Sound (handoff : Handoff) : Prop where
  inOrder : handoff.orders.Pairwise Order.Before
  inRange : ∀ order ∈ handoff.orders, order.worker < handoff.lines.length
  due : ∀ (g : Nat) line, handoff.lines[g]? = some line → Due handoff.orders g line

theorem sound_start (workers : Nat) : (start workers).Sound where
  inOrder := by
    refine List.pairwise_append.2 ⟨?_, ?_, ?_⟩
    · rw [List.pairwise_map]
      exact List.nodup_range.imp fun hne heq => absurd heq hne
    · rw [List.pairwise_flatMap]
      refine ⟨fun g _ => by simp [Order.Before, Order.stage], List.nodup_range.imp ?_⟩
      intro g k hne first hfirst second hsecond heq
      simp only [List.mem_cons, List.not_mem_nil, or_false] at hfirst hsecond
      rcases hfirst with rfl | rfl <;> rcases hsecond with rfl | rfl <;> exact absurd heq hne
    · intro first hfirst second hsecond _
      obtain ⟨g, -, rfl⟩ := List.mem_map.1 hfirst
      obtain ⟨k, -, hsecond⟩ := List.mem_flatMap.1 hsecond
      simp only [List.mem_cons, List.not_mem_nil, or_false] at hsecond
      rcases hsecond with rfl | rfl <;> simp [Order.stage]
  inRange := by
    simp only [start, List.length_replicate, List.mem_append, List.mem_map, List.mem_flatMap,
      List.mem_range, List.mem_cons, List.not_mem_nil, or_false]
    rintro order (⟨g, hg, rfl⟩ | ⟨g, hg, rfl | rfl⟩) <;> exact hg
  due := by
    intro g line hline
    simp only [start, List.getElem?_replicate] at hline
    split at hline
    next hg =>
      cases hline
      exact .unopened (by simp [start, hg]) (by simp [start, hg])
    next => cases hline

section

variable {first : Order} {rest : List Order} {g : Nat} {line : Line}

theorem Due.skip (h : Due (first :: rest) g line) (hother : g ≠ first.worker) : Due rest g line := by
  have htail : ∀ {order : Order}, order.worker = g → (order ∈ first :: rest ↔ order ∈ rest) := by
    intro order horder
    rw [List.mem_cons, or_iff_right]
    rintro rfl
    exact hother horder.symm
  cases h with
  | unopened hstart hsend => exact .unopened ((htail rfl).1 hstart) ((htail rfl).1 hsend)
  | «open» hsend => exact .open ((htail rfl).1 hsend)
  | full hsend => exact .full fun hmem => hsend ((htail rfl).2 hmem)
  | received hsend => exact .received fun hmem => hsend ((htail rfl).2 hmem)

theorem Due.obey (h : Due (first :: rest) first.worker line)
    (hbefore : ∀ later ∈ rest, first.Before later) : Due rest first.worker (line.obey first) := by
  -- orders to one worker come by stage, so none of an earlier stage can be left behind this one
  have hgone : ∀ order : Order, order.worker = first.worker → order.stage ≤ first.stage →
      order ∉ rest := fun order hworker hstage hmem =>
    absurd (hbefore order hmem hworker.symm) (Nat.not_lt.2 hstage)
  have htail : ∀ {order : Order}, order ∈ first :: rest → order ≠ first → order ∈ rest :=
    fun hmem hne => (List.mem_cons.1 hmem).resolve_left hne
  cases h with
  | unopened hstart hsend =>
      cases first with
      | start g => exact .open (htail hsend nofun)
      | send g => exact absurd (htail hstart nofun) (hgone (.start g) rfl (Nat.zero_le _))
      | hangUp g => exact absurd (htail hstart nofun) (hgone (.start g) rfl (Nat.zero_le _))
  | «open» hsend =>
      cases first with
      | start g => exact .open (htail hsend nofun)
      | send g => exact .full (hgone (.send g) rfl (Nat.le_refl _))
      | hangUp g => exact absurd (htail hsend nofun) (hgone (.send g) rfl (Nat.le_succ _))
  | full hsend =>
      have hrest := List.not_mem_of_not_mem_cons hsend
      cases first <;> exact .full hrest
  | received hsend =>
      have hrest := List.not_mem_of_not_mem_cons hsend
      cases first <;> exact .received hrest

end

variable {handoff next : Handoff}

theorem Sound.move (h : handoff.Sound) (hmove : Move handoff next) : next.Sound := by
  cases hmove with
  | @order first rest lines line hline =>
      obtain ⟨hbefore, hrest⟩ := List.pairwise_cons.1 h.inOrder
      refine ⟨hrest, fun order hmem => ?_, fun g found hfound => ?_⟩
      · rw [List.length_set]
        exact h.inRange order (List.mem_cons_of_mem _ hmem)
      · by_cases hg : g = first.worker
        · subst hg
          rw [List.getElem?_set_self (List.getElem?_eq_some_iff.1 hline).1] at hfound
          cases hfound
          exact (h.due _ line hline).obey hbefore
        · rw [List.getElem?_set_ne (Ne.symm hg)] at hfound
          exact (h.due g found hfound).skip hg
  | @receive orders lines g hline =>
      refine ⟨h.inOrder, by simpa using h.inRange, fun k found hfound => ?_⟩
      by_cases hk : k = g
      · subst hk
        rw [List.getElem?_set_self (List.getElem?_eq_some_iff.1 hline).1] at hfound
        cases hfound
        cases h.due k .full hline with
        | full hsend => exact .received hsend
      · rw [List.getElem?_set_ne (Ne.symm hk)] at hfound
        exact h.due k found hfound
  | miss hline => cases h.due _ .cut hline

/-! ## How far a handoff has to go -/

def distance (handoff : Handoff) : Nat :=
  handoff.orders.length + handoff.lines.countP fun line => !line.isOver

theorem distance_start (workers : Nat) : (start workers).distance = 4 * workers := by
  simp [distance, start, List.countP_replicate, Line.isOver]
  omega

theorem distance_set (orders : List Order) {lines : List Line} {g : Nat} {line : Line}
    (hline : lines[g]? = some line) (new : Line) :
    (⟨orders, lines.set g new⟩ : Handoff).distance + (if line.isOver then 0 else 1) =
      (⟨orders, lines⟩ : Handoff).distance + if new.isOver then 0 else 1 := by
  obtain ⟨hg, rfl⟩ := List.getElem?_eq_some_iff.1 hline
  have hpos : lines[g].isOver = false → 0 < lines.countP fun line => !line.isOver := fun hover =>
    List.countP_pos_iff.2 ⟨_, List.getElem_mem hg, by rw [hover]; rfl⟩
  simp only [distance, List.countP_set hg]
  grind

theorem distance_move (hmove : Move handoff next) : handoff.distance = next.distance + 1 := by
  cases hmove with
  | @order first rest lines line hline =>
      have hset := distance_set rest hline (line.obey first)
      rw [Line.isOver_obey] at hset
      simp only [distance, List.length_cons] at hset ⊢
      omega
  | @receive orders _ _ hline => simpa [Line.isOver] using (distance_set orders hline .received).symm
  | @miss orders _ _ hline => simpa [Line.isOver] using (distance_set orders hline .missed).symm

/-- A sound handoff is not stuck before all workers have got their work. -/
theorem Sound.exists_move (h : handoff.Sound) :
    (∃ next, Move handoff next) ∨ ∀ line ∈ handoff.lines, line = .received := by
  obtain ⟨orders, lines⟩ := handoff
  cases orders with
  | cons first rest =>
      exact Or.inl ⟨_, .order (List.getElem?_eq_getElem (h.inRange first List.mem_cons_self))⟩
  | nil =>
      by_cases hall : ∀ line ∈ lines, line = .received
      · exact Or.inr hall
      · push Not at hall
        obtain ⟨line, hmem, hnot⟩ := hall
        obtain ⟨g, hline⟩ := List.mem_iff_getElem?.1 hmem
        cases h.due g line hline with
        | unopened hstart hsend => cases hsend
        | «open» hsend => cases hsend
        | full hsend => exact Or.inl ⟨_, .receive hline⟩
        | received hsend => exact absurd rfl hnot

theorem sound_steps {k : Nat} (h : handoff.Sound) (hsteps : Steps Move k handoff next) :
    next.Sound ∧ handoff.distance = next.distance + k ∧ next.lines.length = handoff.lines.length := by
  induction hsteps with
  | refl handoff => exact ⟨h, rfl, rfl⟩
  | head first rest ih =>
      obtain ⟨hsound, hdistance, hlength⟩ := ih (h.move first)
      refine ⟨hsound, by rw [distance_move first, hdistance]; omega, hlength.trans ?_⟩
      cases first <;> simp

/-- However a handoff goes, it has at most four moves for each worker, no worker ever finds its line cut,
and a handoff that cannot go on has given all workers their work, so that they end with what it ends with. -/
theorem nobody_misses {workers k : Nat} (hsteps : Steps Move k (start workers) handoff) :
    k ≤ 4 * workers ∧ (∀ line ∈ handoff.lines, line ≠ .missed) ∧
      (IsFinal Move handoff → ∀ leaders work, work.length = workers →
        handoff.failures leaders work = work) := by
  obtain ⟨hsound, hdistance, hlength⟩ := sound_steps (sound_start workers) hsteps
  rw [distance_start] at hdistance
  refine ⟨by omega, fun line hmem heq => ?_, fun hfinal leaders work hwork => ?_⟩
  · obtain ⟨g, hline⟩ := List.mem_iff_getElem?.1 hmem
    subst heq
    cases hsound.due g .missed hline
  · have hall := hsound.exists_move.resolve_left fun ⟨next, hmove⟩ => hfinal next hmove
    refine List.ext_getElem? fun g => ?_
    simp only [start, List.length_replicate] at hlength
    rw [failures, List.getElem?_mapIdx]
    cases hline : handoff.lines[g]? with
    | none =>
        have hlt := List.getElem?_eq_none_iff.1 hline
        rw [List.getElem?_eq_none (by omega)]
        rfl
    | some line =>
        obtain ⟨hlt, hget⟩ := List.getElem?_eq_some_iff.1 hline
        rw [hall line (List.mem_of_getElem? hline), List.getElem?_eq_getElem (by omega)]
        rfl

end Handoff

end Tandem
