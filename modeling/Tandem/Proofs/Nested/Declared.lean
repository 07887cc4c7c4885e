import Tandem.Proofs.Nested.Loss
import Tandem.Proofs.Nested.Routes
import Tandem.Proofs.Table

/-!
# What is declared as the memory of a nested rule

A declaration goes from an inner partition to the enclosing partition that it replays, and the memory goes
the other way. So of all declarations of one enclosing partition the memory keeps the last in name order, and
of all kept declarations for one inner partition the one of the highest enclosing partition is loaded last.
These declarations are honoured by every replay; an inner partition without one is left as it is.
-/

namespace Tandem.Nested

/-! ## Declarations -/

/-- The param `name` declares that inner partition `k` replays enclosing partition `o`. -/
def Declares (params : Params) (name : String) (k o : Nat) : Prop :=
  route? name = some (k, memoryName) ∧ partitionIndex params name = .ok o

/-- The last declaration of enclosing partition `o` is that inner partition `k` replays it. -/
def Settles (params : Params) (k o : Nat) : Prop :=
  ∃ name, Declares params name k o ∧ ∀ other target, Declares params other target o → other ≤ name

theorem route?_decimal {k : Nat} (hk : k < Word.count) :
    route? (toString k ++ "/" ++ memoryName) = some (k, memoryName) :=
  route?_eq_some_iff.2 (routes_decimal hk (by decide))

/-! ## What the memory keeps -/

section Reading

variable {params : Params}

theorem Declares.unique {name : String} {k l o : Nat} (h : Declares params name k o)
    (h' : Declares params name l o) : k = l :=
  congrArg Prod.fst (Option.some.inj (h.1.symm.trans h'.1))

theorem Declares.mem_names {name : String} {k o : Nat} (h : Declares params name k o) :
    name ∈ params.names := by
  obtain ⟨-, hindex⟩ := h
  unfold partitionIndex at hindex
  obtain ⟨value, hvalue, -⟩ := bind_eq_ok hindex
  obtain ⟨values, hvalues, -⟩ := bind_eq_ok hvalue
  unfold Params.get at hvalues
  split at hvalues
  next found hfound => exact Table.mem_keys_iff.2 ⟨found, hfound⟩
  next => cases hvalues

theorem sorted_names (params : Params) : params.names.Pairwise (· < ·) := by
  rw [Params.names, Table.keys, List.pairwise_map]
  exact params.values.ascending.imp fun h => compareOfLessAndEq_eq_lt.1 h

theorem readMemory_cons {name : String} {rest : List String} {memory next : Table Nat Nat}
    (h : readMemory params (name :: rest) memory = .ok next) :
    (∃ k o, Declares params name k o ∧ readMemory params rest (memory.insert o k) = .ok next) ∨
      (∀ k, route? name ≠ some (k, memoryName)) ∧ readMemory params rest memory = .ok next := by
  unfold readMemory at h
  split at h
  next inner field hroute =>
    split at h
    next hfield =>
      obtain ⟨outer, houter, h⟩ := bind_eq_ok h
      exact Or.inl ⟨inner, outer, ⟨hfield ▸ hroute, houter⟩, h⟩
    next hfield =>
      refine Or.inr ⟨fun k hk => hfield ?_, h⟩
      exact congrArg Prod.snd (Option.some.inj (hroute.symm.trans hk))
  next hroute =>
    refine Or.inr ⟨fun k hk => ?_, h⟩
    cases hroute.symm.trans hk

theorem exists_declares {names : List String} {memory next : Table Nat Nat}
    (h : readMemory params names memory = .ok next) {name : String} (hname : name ∈ names) {k : Nat}
    (hroute : route? name = some (k, memoryName)) : ∃ o, Declares params name k o := by
  induction names generalizing memory with
  | nil => cases hname
  | cons first rest ih =>
      rcases readMemory_cons h with ⟨l, o, hdeclares, hrest⟩ | ⟨hnone, hrest⟩
      · rcases List.mem_cons.1 hname with rfl | hmem
        · obtain ⟨hroute', hindex⟩ := hdeclares
          exact ⟨o, hroute, hindex⟩
        · exact ih hrest hmem
      · rcases List.mem_cons.1 hname with rfl | hmem
        · exact absurd hroute (hnone k)
        · exact ih hrest hmem

/-- Of the given names, the last that declares enclosing partition `o` does so for inner partition `k`. -/
def SettledBy (params : Params) (names : List String) (k o : Nat) : Prop :=
  ∃ name ∈ names, Declares params name k o ∧
    ∀ other ∈ names, ∀ target, Declares params other target o → other ≤ name

theorem settles_iff {k o : Nat} : Settles params k o ↔ SettledBy params params.names k o := by
  constructor
  · rintro ⟨name, hdeclares, hlast⟩
    exact ⟨name, hdeclares.mem_names, hdeclares, fun other _ => hlast other⟩
  · rintro ⟨name, -, hdeclares, hlast⟩
    exact ⟨name, hdeclares, fun other target hother => hlast other hother.mem_names target hother⟩

section Cons

variable {name : String} {rest : List String} {k o : Nat}

theorem settledBy_cons_of_skip (hskip : ∀ target, ¬ Declares params name target o) :
    SettledBy params (name :: rest) k o ↔ SettledBy params rest k o := by
  constructor
  · rintro ⟨found, hfound, hdeclares, hlast⟩
    rcases List.mem_cons.1 hfound with rfl | hmem
    · exact absurd hdeclares (hskip k)
    · exact ⟨found, hmem, hdeclares, fun other hother => hlast other (List.mem_cons_of_mem _ hother)⟩
  · rintro ⟨found, hfound, hdeclares, hlast⟩
    refine ⟨found, List.mem_cons_of_mem _ hfound, hdeclares, fun other hother target hother' => ?_⟩
    rcases List.mem_cons.1 hother with rfl | hmem
    · exact absurd hother' (hskip target)
    · exact hlast other hmem target hother'

theorem settledBy_cons_of_declares {l : Nat} (hless : ∀ other ∈ rest, name < other)
    (hdeclares : Declares params name l o) :
    SettledBy params (name :: rest) k o ↔ SettledBy params rest k o ∨
      l = k ∧ ∀ other ∈ rest, ∀ target, ¬ Declares params other target o := by
  constructor
  · rintro ⟨found, hfound, hfoundDeclares, hlast⟩
    rcases List.mem_cons.1 hfound with rfl | hmem
    · refine Or.inr ⟨hdeclares.unique hfoundDeclares, fun other hother target hother' => ?_⟩
      exact absurd (hlast other (List.mem_cons_of_mem _ hother) target hother') (String.not_le.2 (hless other hother))
    · exact Or.inl ⟨found, hmem, hfoundDeclares, fun other hother => hlast other (List.mem_cons_of_mem _ hother)⟩
  · rintro (⟨found, hfound, hfoundDeclares, hlast⟩ | ⟨rfl, hnone⟩)
    · refine ⟨found, List.mem_cons_of_mem _ hfound, hfoundDeclares, fun other hother target hother' => ?_⟩
      rcases List.mem_cons.1 hother with rfl | hmem
      · exact Std.le_of_lt (hless found hfound)
      · exact hlast other hmem target hother'
    · refine ⟨name, List.mem_cons_self, hdeclares, fun other hother target hother' => ?_⟩
      rcases List.mem_cons.1 hother with rfl | hmem
      · exact String.le_refl _
      · exact absurd hother' (hnone other hmem target)

end Cons

theorem get?_readMemory {names : List String} {memory next : Table Nat Nat}
    (hsorted : names.Pairwise (· < ·)) (h : readMemory params names memory = .ok next) (o k : Nat) :
    next.get? o = some k ↔ SettledBy params names k o ∨
      memory.get? o = some k ∧ ∀ name ∈ names, ∀ target, ¬ Declares params name target o := by
  induction names generalizing memory with
  | nil =>
      cases h
      simp [SettledBy]
  | cons first rest ih =>
      obtain ⟨hless, hsorted⟩ := List.pairwise_cons.1 hsorted
      have hskip : ∀ {memory : Table Nat Nat}, (∀ target, ¬ Declares params first target o) →
          ((SettledBy params rest k o ∨
              memory.get? o = some k ∧ ∀ name ∈ rest, ∀ target, ¬ Declares params name target o) ↔
            SettledBy params (first :: rest) k o ∨
              memory.get? o = some k ∧ ∀ name ∈ first :: rest, ∀ target, ¬ Declares params name target o) := by
        intro memory hnone
        rw [settledBy_cons_of_skip hnone, List.forall_mem_cons, and_iff_right hnone]
      rcases readMemory_cons h with ⟨l, p, hdeclares, hrest⟩ | ⟨hroute, hrest⟩
      · rw [ih hsorted hrest, Table.get?_insert]
        by_cases ho : o = p
        · subst ho
          rw [if_pos rfl, settledBy_cons_of_declares hless hdeclares, Option.some.injEq]
          refine (or_iff_left ?_).symm
          rintro ⟨-, hnone⟩
          exact hnone first List.mem_cons_self l hdeclares
        · rw [if_neg ho]
          refine hskip fun target htarget => ho ?_
          exact Except.ok.inj (htarget.2.symm.trans hdeclares.2)
      · rw [ih hsorted hrest]
        exact hskip fun target htarget => hroute target htarget.1

end Reading

/-! ## What is loaded -/

variable {ρ τ : Type} [UpdateRule ρ]

/-- In an inner run of `inner` with `rules`, partition `k` starts from the oldest of the last `depth` rows of
enclosing partition `o`, and its rule replays the window of that partition. -/
def ReplaysWindow (view : View) (depth k o : Nat) (inner : Plan) (rules : List ρ) : Prop :=
  ∃ window oldest p rule, view.windows[o]? = some window ∧ window.row (depth - 1) = .ok oldest ∧
    inner.partitions[k]? = some p ∧ p.initial = oldest ∧ rules[k]? = some rule ∧
    UpdateRule.replay? rule = some ⟨some window⟩

section Loading

variable {view : View} {depth : Nat} {entries : List (Nat × Nat)} {plan inner : Plan} {rules loaded : List ρ}

theorem loadMemory_cons_eq_ok {o target : Nat}
    (h : loadMemory view depth ((o, target) :: entries) plan rules = (.ok inner, loaded)) :
    ∃ window oldest p rule, view.windows[o]? = some window ∧ window.row (depth - 1) = .ok oldest ∧
      plan.partitions[target]? = some p ∧ rules[target]? = some rule ∧ (UpdateRule.replay? rule).isSome ∧
      loadMemory view depth entries
        { plan with partitions := plan.partitions.set target { p with initial := oldest } }
        (rules.set target (UpdateRule.store window rule)) = (.ok inner, loaded) := by
  unfold loadMemory at h
  split at h
  · cases h
  next window oldest hfound =>
    split at h
    next p rule hp hrule =>
      split at h
      · cases h
      next hreplay =>
        obtain ⟨data, hdata, hrow⟩ := bind_eq_ok hfound
        obtain ⟨row, hrow, hpair⟩ := bind_eq_ok hrow
        cases hpair
        refine ⟨window, oldest, p, rule, ?_, hrow, hp, hrule, ?_, h⟩
        · unfold View.window at hdata
          split at hdata
          next found hfound =>
            cases hdata
            exact hfound
          next => cases hdata
        · rwa [Option.isNone_iff_eq_none, ← ne_eq, ← Option.isSome_iff_ne_none] at hreplay
    next => cases h

theorem loadMemory_skips {k : Nat} (hnone : ∀ entry ∈ entries, entry.2 ≠ k)
    (h : loadMemory view depth entries plan rules = (.ok inner, loaded)) :
    inner.partitions[k]? = plan.partitions[k]? ∧ loaded[k]? = rules[k]? := by
  induction entries generalizing plan rules with
  | nil =>
      cases h
      exact ⟨rfl, rfl⟩
  | cons entry rest ih =>
      obtain ⟨o, target⟩ := entry
      obtain ⟨htarget, hnone⟩ := List.forall_mem_cons.1 hnone
      obtain ⟨window, oldest, p, rule, -, -, -, -, -, hrest⟩ := loadMemory_cons_eq_ok h
      obtain ⟨hpartition, hrule⟩ := ih hnone hrest
      exact ⟨hpartition.trans (List.getElem?_set_ne htarget), hrule.trans (List.getElem?_set_ne htarget)⟩

theorem loadMemory_replays [StoringRules ρ] {k o : Nat} (hmem : (o, k) ∈ entries)
    (hsorted : entries.Pairwise fun first second => first.1 < second.1)
    (hlast : ∀ other, (other, k) ∈ entries → other ≤ o)
    (h : loadMemory view depth entries plan rules = (.ok inner, loaded)) :
    ReplaysWindow view depth k o inner loaded := by
  induction entries generalizing plan rules with
  | nil => cases hmem
  | cons entry rest ih =>
      obtain ⟨first, target⟩ := entry
      obtain ⟨hless, hsorted⟩ := List.pairwise_cons.1 hsorted
      obtain ⟨window, oldest, p, rule, hwindow, holdest, hp, hrule, hreplay, hrest⟩ := loadMemory_cons_eq_ok h
      rcases List.mem_cons.1 hmem with heq | hmem
      · obtain ⟨rfl, rfl⟩ := Prod.mk.inj heq
        have hnone : ∀ entry ∈ rest, entry.2 ≠ k := by
          rintro ⟨other, _⟩ hother rfl
          exact absurd (hlast other (List.mem_cons_of_mem _ hother)) (Nat.not_le.2 (hless _ hother))
        obtain ⟨hpartition, hloaded⟩ := loadMemory_skips hnone hrest
        rw [List.getElem?_set_self (List.getElem?_eq_some_iff.1 hp).1] at hpartition
        rw [List.getElem?_set_self (List.getElem?_eq_some_iff.1 hrule).1] at hloaded
        exact ⟨window, oldest, _, _, hwindow, holdest, hpartition, rfl, hloaded,
          StoringRules.replay?_store window hreplay⟩
      · exact ih hmem hsorted (fun other hother => hlast other (List.mem_cons_of_mem _ hother)) hrest

end Loading

/-! ## The calls -/

variable [StoringRules ρ] [Pace τ]

omit [StoringRules ρ] [Pace τ] in
theorem readMemory_of_findMemory {params : Params} {plan : Plan} {rules : List ρ} {memory : Table Nat Nat}
    {depth : Nat} (h : findMemory params plan rules = .ok (memory, depth)) :
    readMemory params params.names ∅ = .ok memory := by
  obtain ⟨found, hread, h⟩ := bind_eq_ok h
  obtain ⟨_, -, h⟩ := bind_eq_ok h
  obtain ⟨shared, -, h⟩ := bind_eq_ok h
  split at h
  · cases h
  · cases h
    exact hread

/-- The memory of a configured nested rule keeps, of the declarations of one enclosing partition, the last.
In every later inner run that replays, an inner partition replays the highest enclosing partition kept for
it, from its oldest row on, or is left as it is. -/
theorem settled_declarations_are_honoured {index : Nat} {plan : Plan} {fresh nested : Nested ρ τ}
    {p : PartitionPlan} (hconfigure : UpdateRule.configure index plan fresh = (.ok (), nested))
    (hp : plan.partition index = .ok p) :
    (∀ k < Word.count, route? (toString k ++ "/" ++ memoryName) = some (k, memoryName)) ∧
      (∀ name ∈ p.params.names, ∀ k, route? name = some (k, memoryName) →
        ∃ o, Declares p.params name k o) ∧
      (∀ k o, nested.memory.get? o = some k ↔ Settles p.params k o) ∧
      (∀ k o, Settles p.params k o → ∃ behaviour rule, nested.behaviour = some behaviour ∧
        behaviour.rules[k]? = some rule ∧ (UpdateRule.replay? rule).isSome) ∧
      ∀ (calls : Nat → Call) (n : Nat) before inner rules record,
        (nested.afterCalls calls n).behaviour = some before →
        (calls n).Attempts (nested.afterCalls calls n) before inner rules (some record) →
        (calls n).reply (nested.afterCalls calls n) =
            runReplay inner record { nested with behaviour := some { before with rules := rules } } ∧
          (∀ k o, Settles p.params k o → (∀ other, Settles p.params k other → other ≤ o) →
            ReplaysWindow (calls n).view nested.depth k o inner rules) ∧
          ∀ k, (∀ o, ¬ Settles p.params k o) → rules[k]? = before.rules[k]? ∧ ∃ overrides,
            nested.overridden (calls n).params = .ok overrides ∧
            inner.partitions[k]? = overrides.partitions[k]? := by
  obtain ⟨_, behaviour, q, -, -, -, hheld, hq, hmemory⟩ := configure_eq_ok hconfigure
  obtain rfl := Except.ok.inj (hp.symm.trans hq)
  have hread := readMemory_of_findMemory hmemory
  have hsettles : ∀ k o, nested.memory.get? o = some k ↔ Settles p.params k o := by
    intro k o
    rw [get?_readMemory (sorted_names p.params) hread, settles_iff]
    exact or_iff_left fun h => by cases h.1
  have hmem : ∀ k o, (o, k) ∈ nested.memory.entries ↔ Settles p.params k o := fun k o =>
    Table.mem_entries_iff.trans (hsettles k o)
  have hsorted : nested.memory.entries.Pairwise fun first second => first.1 < second.1 :=
    nested.memory.ascending.imp fun h => Nat.compare_eq_lt.1 h
  refine ⟨fun k => route?_decimal, fun name hname k => exists_declares hread hname, hsettles,
    fun k o hsettled => ?_, fun calls n before inner rules record hbefore hattempts => ?_⟩
  · obtain ⟨rule, hrule, hreplay⟩ :=
      findMemory_eq_ok hmemory k (Table.mem_values_iff.2 ⟨o, (hsettles k o).2 hsettled⟩)
    exact ⟨behaviour, rule, hheld, hrule, hreplay⟩
  · have hreply := hattempts.reply_eq_replay hbefore
    obtain ⟨_, hsame⟩ := nested.exists_afterCalls calls n
    rw [hsame] at hreply hattempts ⊢
    refine ⟨hreply, ?_⟩
    cases hattempts with
    | @replay overrides _ _ _ start hburn hoverrides _ hrecord hstart hload hcheck =>
        refine ⟨fun k o hsettled hhighest => ?_, fun k hnone => ?_⟩
        · exact loadMemory_replays ((hmem k o).2 hsettled) hsorted
            (fun other hother => hhighest other ((hmem k other).1 hother)) hload
        · have hskips : ∀ entry ∈ nested.memory.entries, entry.2 ≠ k := by
            rintro ⟨o, _⟩ hentry rfl
            exact hnone o ((hmem _ o).1 hentry)
          obtain ⟨hpartition, hrule⟩ := loadMemory_skips hskips hload
          exact ⟨hrule, overrides, hoverrides, hpartition⟩

/-- Three inner partitions, each with a rule that replays. -/
def tapesPlan : Plan where
  partitions := [
    ⟨"first", .empty, ∅, [0], 0, 1, 1⟩,
    ⟨"second", .empty, ∅, [0], 0, 1, 1⟩,
    ⟨"third", .empty, ∅, [0], 0, 1, 1⟩]
  startTime := 0
  timelineDepth := 1
  groups := []

def tapesBehaviour : Behaviour StockRule StockPace :=
  .new [.replay ⟨none⟩, .replay ⟨none⟩, .replay ⟨none⟩] (.steps 1) (.constant 1)

/-- The first two are declared to replay "walk", and the third "drift". -/
def tapesParams : Params := .ofList [
  ("0/state_memory_partition", [0]),
  ("1/state_memory_partition", [0]),
  ("2/state_memory_partition", [1])]

def twinsPlan : Plan where
  partitions := [
    ⟨"walk", .empty, ∅, [0], 0, 1, 2⟩,
    ⟨"drift", .empty, ∅, [0], 0, 1, 2⟩,
    ⟨"tapes", tapesParams, ∅, [0, 0, 0], 0, 3, 1⟩]
  startTime := 0
  timelineDepth := 2
  groups := []

/-- The memory has no room for the declaration of the first. -/
def tapesRule : Nested StockRule StockPace where
  plan := tapesPlan.tag
  behaviour := some tapesBehaviour
  memory := .ofList [(0, 1), (1, 2)]
  depth := 2
  burnIn := 0

def tapesCall : Call where
  params := tapesParams
  index := 2
  view := ⟨[⟨[7, 3], 1, 2⟩, ⟨[9, 8], 1, 2⟩, ⟨[0, 0, 0], 3, 1⟩], ⟨1, [0], 1, 1⟩⟩

theorem tapesRule_honours_settled_declarations :
    UpdateRule.configure 2 twinsPlan (new tapesPlan tapesBehaviour) = (.ok (), tapesRule) ∧
      Declares tapesParams "0/state_memory_partition" 0 0 ∧ (∀ o, ¬ Settles tapesParams 0 o) ∧
      (∃ inner rules record, tapesCall.Attempts tapesRule tapesBehaviour inner rules (some record) ∧
        ReplaysWindow tapesCall.view 2 1 0 inner rules ∧ ReplaysWindow tapesCall.view 2 2 1 inner rules ∧
        rules[0]? = some (.replay ⟨none⟩)) ∧
      (tapesCall.reply tapesRule).result =
        .error (.fault (.ruleFailed "first" 1 (.invalid (.noReplayData "first")))) := by
  have hconfigure : UpdateRule.configure 2 twinsPlan (new tapesPlan tapesBehaviour) = (.ok (), tapesRule) := rfl
  obtain ⟨-, -, hsettles, -, hcalls⟩ := settled_declarations_are_honoured hconfigure rfl
  have hentry : ∀ k o, Settles tapesParams k o → (o, k) ∈ [(0, 1), (1, 2)] := fun k o hsettled =>
    Table.mem_entries_iff.2 ((hsettles k o).2 hsettled)
  have hnone : ∀ o, ¬ Settles tapesParams 0 o := by
    intro o hsettled
    simpa using hentry 0 o hsettled
  have hattempts : tapesCall.Attempts tapesRule tapesBehaviour _ _ (some _) :=
    .replay (Nat.zero_le _) rfl rfl rfl rfl rfl rfl
  obtain ⟨-, hreplays, hskips⟩ := hcalls (fun _ => tapesCall) 0 _ _ _ _ rfl hattempts
  refine ⟨hconfigure, ⟨rfl, rfl⟩, hnone, ⟨_, _, _, hattempts, ?_, ?_, (hskips 0 hnone).1⟩, rfl⟩
  · refine hreplays 1 0 ((hsettles 1 0).1 rfl) fun other hother => ?_
    exact Nat.le_of_eq (by simpa using hentry 1 other hother)
  · refine hreplays 2 1 ((hsettles 2 1).1 rfl) fun other hother => ?_
    exact Nat.le_of_eq (by simpa using hentry 2 other hother)

end Tandem.Nested
