import Tandem.Proofs.Workers.Basic
import Tandem.Proofs.Workers.Diamond

/-!
# Moves of different workers commute

Workers that share neither a partition nor the sending end of a wire can only meet on a wire that one of
them writes and the other reads. A move that a worker can make it can still make after a move of
another, with the same effect, and in either order the two leave the same crew.
-/

namespace Tandem

/-- Two workers have no partition in common and send on different wires. -/
structure Worker.Apart (v w : Worker) : Prop where
  index : ∀ s ∈ v.todo, ∀ t ∈ w.todo, s.index ≠ t.index
  send : ∀ i j r p, Task.send i r p ∈ v.todo → Task.send j r p ∉ w.todo

namespace Worker.Apart

variable {v w : Worker}

theorem symm (h : v.Apart w) : w.Apart v where
  index := fun s hs t ht heq => h.index t ht s hs heq.symm
  send := fun i j r p hi hj => h.send j i r p hj hi

theorem mono {v' w' : Worker} (h : v.Apart w) (hv : v'.todo ⊆ v.todo) (hw : w'.todo ⊆ w.todo) :
    v'.Apart w' where
  index := fun s hs t ht => h.index s (hv hs) t (hw ht)
  send := fun i j r p hi hj => h.send i j r p (hv hi) (hw hj)

end Worker.Apart

/-- A use of the wire to `param` of `reader` that tasks in `todo` entitle to. -/
inductive WireUse.Entitled (todo : List Task) (reader : Nat) (param : String) : WireUse → Prop
  | keep : Entitled todo reader param .keep
  | close (h : .receive reader param ∈ todo) : Entitled todo reader param .close
  | send (state : State) (i : Nat) (h : .send i reader param ∈ todo) :
      Entitled todo reader param (.send state)
  | hangUp (i : Nat) (h : .send i reader param ∈ todo) : Entitled todo reader param .hangUp

namespace Effect

variable {todo : List Task}

theorem mem_of_sendsTo {r : Nat} {p : String} (h : todo.any (Task.sendsTo r p) = true) :
    ∃ i, Task.send i r p ∈ todo := by
  obtain ⟨task, hmem, htask⟩ := List.any_eq_true.1 h
  cases task with
  | send i reader param =>
      obtain ⟨rfl, rfl⟩ : reader = r ∧ param = p := by simpa [Task.sendsTo] using htask
      exact ⟨i, hmem⟩
  | _ => simp [Task.sendsTo] at htask

theorem entitled_drop (todo : List Task) (r : Nat) (p : String) :
    (drop todo r p).Entitled todo r p := by
  unfold drop
  split
  next h => exact .close h
  next =>
    split
    next h =>
      obtain ⟨i, hi⟩ := mem_of_sendsTo h
      exact .hangUp i hi
    next => exact .keep

theorem entitled_oneWire {reader : Nat} {param : String} {use : WireUse}
    (h : use.Entitled todo reader param) (r : Nat) (p : String) :
    (oneWire reader param use r p).Entitled todo r p := by
  unfold oneWire
  split
  next heq =>
    obtain ⟨rfl, rfl⟩ := heq
    exact h
  next => exact .keep

end Effect

theorem WireUse.Entitled.mono {todo todo' : List Task} {r : Nat} {p : String} {use : WireUse}
    (h : use.Entitled todo r p) (hsubset : todo ⊆ todo') : use.Entitled todo' r p := by
  cases h with
  | keep => exact .keep
  | close h => exact .close (hsubset h)
  | send state i h => exact .send state i (hsubset h)
  | hangUp i h => exact .hangUp i (hsubset h)

namespace Crew

variable {ρ : Type} [UpdateRule ρ] {view : View} {crew : Crew ρ}

/-- A move changes the cell of its task, drops tasks and adds none, and uses only wires of its tasks. -/
theorem effect?_spec {worker : Worker} {effect : Effect ρ}
    (h : crew.effect? view worker = some effect) :
    (∃ task ∈ worker.todo, task.index = effect.index) ∧ effect.worker.todo ⊆ worker.todo ∧
      ∀ r p, (effect.wires r p).Entitled worker.todo r p := by
  obtain ⟨todo, held, failure⟩ := worker
  cases todo with
  | nil => simp [effect?] at h
  | cons task todo =>
      have hhead : task ∈ task :: todo := List.mem_cons_self
      have htail : todo ⊆ task :: todo := List.subset_cons_self task todo
      have hnone : ([] : List Task) ⊆ task :: todo := List.nil_subset _
      cases task with
      | receive index param =>
          simp only [effect?, Option.bind_eq_some_iff, Option.map_eq_some_iff] at h
          obtain ⟨cell, -, message, -, rfl⟩ := h
          simp only [receive]
          split
          · exact ⟨⟨_, hhead, rfl⟩, htail, Effect.entitled_oneWire (.close hhead)⟩
          · exact ⟨⟨_, hhead, rfl⟩, hnone, Effect.entitled_drop _⟩
      | call index =>
          simp only [effect?, Option.map_eq_some_iff] at h
          obtain ⟨cell, -, rfl⟩ := h
          simp only [call]
          split
          · exact ⟨⟨_, hhead, rfl⟩, htail, fun r p => .keep⟩
          · exact ⟨⟨_, hhead, rfl⟩, hnone, fun r p => (Effect.entitled_drop todo r p).mono htail⟩
      | send index reader param =>
          simp only [effect?] at h
          split at h
          · cases h
          · obtain ⟨cell, -, rfl⟩ := Option.map_eq_some_iff.1 h
            exact ⟨⟨_, hhead, rfl⟩, htail,
              Effect.entitled_oneWire (.send held index hhead)⟩
      | store index =>
          simp only [effect?, Option.map_eq_some_iff] at h
          obtain ⟨cell, -, rfl⟩ := h
          exact ⟨⟨_, hhead, rfl⟩, htail, fun r p => .keep⟩

/-! ## One wire, two workers -/

theorem message?_used {v w : Worker} {r : Nat} {p : String} {use : WireUse} {wire : Wire}
    {message : Option State} (hapart : v.Apart w) (huse : use.Entitled v.todo r p)
    (hreader : .receive r p ∈ w.todo) (h : wire.message? = some message) :
    (wire.used use).message? = some message := by
  cases huse with
  | keep => exact h
  | close hmem => exact absurd rfl (hapart.index _ hmem _ hreader)
  | send state i hmem => cases wire <;> simp_all [Wire.message?, Wire.used]
  | hangUp i hmem => cases wire <;> simp_all [Wire.message?, Wire.used]

theorem isFull_used {v w : Worker} {i r : Nat} {p : String} {use : WireUse} {wire : Wire}
    (hapart : v.Apart w) (huse : use.Entitled v.todo r p) (hsender : .send i r p ∈ w.todo)
    (h : wire.isFull = false) : (wire.used use).isFull = false := by
  cases huse with
  | keep => exact h
  | close hmem => rfl
  | send state j hmem => exact absurd hsender (hapart.send j i r p hmem)
  | hangUp j hmem => cases wire <;> simp_all [Wire.isFull, Wire.used]

/-- What two workers do to one wire they may do in either order. -/
theorem used_comm {v w : Worker} {r : Nat} {p : String} {use use' : WireUse} (wire : Wire)
    (hapart : v.Apart w) (huse : use.Entitled v.todo r p) (huse' : use'.Entitled w.todo r p) :
    (wire.used use).used use' = (wire.used use').used use := by
  cases huse with
  | keep => rfl
  | close hmem => cases huse' <;> rfl
  | send state i hmem =>
      cases huse' with
      | keep => rfl
      | close hmem' => rfl
      | send _ j hmem' => exact absurd hmem' (hapart.send i j r p hmem)
      | hangUp j hmem' => exact absurd hmem' (hapart.send i j r p hmem)
  | hangUp i hmem =>
      cases huse' with
      | keep => rfl
      | close hmem' => rfl
      | send _ j hmem' => exact absurd hmem' (hapart.send i j r p hmem)
      | hangUp j hmem' => rfl

/-! ## Two moves -/

theorem effect?_apply {v w : Worker} {e f : Effect ρ} (g : Nat) (hapart : v.Apart w)
    (he : crew.effect? view v = some e) (hf : crew.effect? view w = some f) :
    (crew.apply g e).effect? view w = some f := by
  obtain ⟨⟨task, htask, hindex⟩, -, hwires⟩ := effect?_spec he
  have hcell : ∀ t ∈ w.todo, (crew.apply g e).cells[t.index]? = crew.cells[t.index]? := by
    intro t ht
    have hne : e.index ≠ t.index := hindex ▸ hapart.index task htask t ht
    simp [apply, List.getElem?_set_ne hne]
  obtain ⟨todo, held, failure⟩ := w
  cases todo with
  | nil => simp [effect?] at hf
  | cons task' todo =>
      have hhead := hcell task' List.mem_cons_self
      cases task' with
      | receive index param =>
          simp only [effect?, Option.bind_eq_some_iff, Option.map_eq_some_iff] at hf ⊢
          obtain ⟨cell, hin, message, hmessage, rfl⟩ := hf
          exact ⟨cell, hhead.trans hin, message,
            message?_used hapart (hwires index param) List.mem_cons_self hmessage, rfl⟩
      | call index =>
          simp only [effect?] at hf ⊢
          rw [← hf]
          exact congrArg _ hhead
      | send index reader param =>
          simp only [effect?] at hf ⊢
          split at hf
          · cases hf
          next hfull =>
            have hroom : ((crew.apply g e).wires reader param).isFull = false :=
              isFull_used hapart (hwires reader param) List.mem_cons_self (by simpa using hfull)
            rw [hroom, ← hf, if_neg (by simp)]
            exact congrArg _ hhead
      | store index =>
          simp only [effect?] at hf ⊢
          rw [← hf]
          exact congrArg _ hhead

theorem apply_comm {v w : Worker} {e f : Effect ρ} {g h : Nat} (hne : g ≠ h) (hapart : v.Apart w)
    (he : crew.effect? view v = some e) (hf : crew.effect? view w = some f) :
    (crew.apply g e).apply h f = (crew.apply h f).apply g e := by
  obtain ⟨⟨s, hs, hsindex⟩, -, hwires⟩ := effect?_spec he
  obtain ⟨⟨t, ht, htindex⟩, -, hwires'⟩ := effect?_spec hf
  have hindex : e.index ≠ f.index := by
    rw [← hsindex, ← htindex]
    exact hapart.index s hs t ht
  simp only [apply, Crew.mk.injEq]
  refine ⟨List.set_comm _ _ hindex, ?_, List.set_comm _ _ hne⟩
  funext r p
  exact used_comm (crew.wires r p) hapart (hwires r p) (hwires' r p)

/-! ## All workers -/

def Apart (crew : Crew ρ) : Prop :=
  ∀ (g h : Nat) (v w : Worker),
    crew.workers[g]? = some v → crew.workers[h]? = some w → g ≠ h → v.Apart w

/-- Any two moves from a crew of workers that are apart meet again after one more. -/
theorem diamond (view : View) : Diamond (Move (ρ := ρ) view) Apart where
  next := by
    rintro crew _ hapart ⟨i, worker, effect, hworker, heffect, rfl⟩
    have hsub : effect.worker.todo ⊆ worker.todo := (effect?_spec heffect).2.1
    have hbefore : ∀ (g : Nat) (v : Worker), (crew.apply i effect).workers[g]? = some v →
        ∃ u : Worker, crew.workers[g]? = some u ∧ v.todo ⊆ u.todo := by
      intro g v hv
      by_cases hg : g = i
      · subst hg
        have hlt : g < crew.workers.length := (List.getElem?_eq_some_iff.1 hworker).1
        simp only [apply, List.getElem?_set_self hlt, Option.some.injEq] at hv
        exact ⟨worker, hworker, hv ▸ hsub⟩
      · simp only [apply, List.getElem?_set_ne (Ne.symm hg)] at hv
        exact ⟨v, hv, List.Subset.refl _⟩
    intro g h v w hv hw hne
    obtain ⟨v', hv', hvsub⟩ := hbefore g v hv
    obtain ⟨w', hw', hwsub⟩ := hbefore h w hw
    exact (hapart g h v' w' hv' hw' hne).mono hvsub hwsub
  join := by
    rintro crew _ _ hapart ⟨g, v, e, hv, he, rfl⟩ ⟨h, w, f, hw, hf, rfl⟩
    by_cases hgh : g = h
    · subst hgh
      obtain rfl : v = w := Option.some.inj (hv.symm.trans hw)
      obtain rfl : e = f := Option.some.inj (he.symm.trans hf)
      exact Or.inl rfl
    · have hvw := hapart g h v w hv hw hgh
      refine Or.inr ⟨(crew.apply g e).apply h f, ⟨h, w, f, ?_, effect?_apply g hvw he hf, rfl⟩,
        ⟨g, v, e, ?_, effect?_apply h hvw.symm hf he, apply_comm hgh hvw he hf⟩⟩
      · simpa only [apply, List.getElem?_set_ne hgh] using hw
      · simpa only [apply, List.getElem?_set_ne (Ne.symm hgh)] using hv

theorem isFinal_of_isDone (h : crew.IsDone) : IsFinal (Move view) crew := by
  rintro _ ⟨g, worker, effect, hworker, heffect, -⟩
  have htodo := h worker (List.mem_of_getElem? hworker)
  simp [effect?, htodo] at heffect

end Crew

end Tandem
