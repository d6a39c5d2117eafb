import LiveStack.Proofs.Run.Outcomes

/-!
# Words that go along a list

`map`, `filter` and `fold` run a quotation on the values of a list, one after the other, on the
stack that all code shares. Where the quotation computes a function of the values that it takes,
they are the functions of these names: what is below on the stack stays, and so does everything
else, so that each item is computed as the first one was. A value becomes an item and is taken out
of it again as it was. Therefore two maps are one, with the two quotations behind each other. An
item that is no data stops all three words.
-/

namespace LiveStack

open Execution Run

/-- The values of a list, if all its items are data, and else the failure of the first that is
not. -/
def Code.values (items : Code) : Except Cause (List Value) := items.mapM Instruction.value

/-- The item is data, and the test finds its value true. -/
def Instruction.passes (test : Value → Value) (item : Instruction) : Bool :=
  item.element.value?.any fun value => (test value).truth

namespace Instruction

variable {item : Instruction}

theorem value_eq_ok_iff {value : Value} :
    item.value = .ok value ↔ item.element.value? = some value := by
  rw [Instruction.value]
  cases item.element.value? with
  | none => simp
  | some own => rw [Except.ok.injEq, Option.some.injEq]

theorem value_of_none (none : item.element.value? = none) :
    item.value = .error (.typeMismatch "list of values" s!"word {item.element.render}") := by
  rw [Instruction.value, none]

theorem passes_of_ok {value : Value} (read : item.value = .ok value) (test : Value → Value) :
    item.passes test = (test value).truth := by
  rw [passes, value_eq_ok_iff.1 read]
  rfl

end Instruction

namespace Code

variable {item : Instruction} {items rest : Code}

theorem values_cons_of_ok {value : Value} (read : item.value = .ok value) (rest : Code) :
    values (item :: rest) = (values rest).map (value :: ·) := by
  rw [values, List.mapM_cons, read]
  rfl

theorem values_cons_of_error {cause : Cause} (read : item.value = .error cause) (rest : Code) :
    values (item :: rest) = .error cause := by
  rw [values, List.mapM_cons, read]
  rfl

/-- A list has values if each of its items has one. -/
theorem values_eq_ok_iff {found : List Value} :
    values items = .ok found ↔ items.map (·.element.value?) = found.map some := by
  induction items generalizing found with
  | nil =>
      cases found with
      | nil => exact ⟨fun _ => rfl, fun _ => rfl⟩
      | cons => exact ⟨nofun, nofun⟩
  | cons item rest ih =>
      cases read : item.value with
      | error cause =>
          have none : item.element.value? = none := by
            rw [Option.eq_none_iff_forall_not_mem]
            intro value mem
            cases read.symm.trans (Instruction.value_eq_ok_iff.2 mem)
          rw [values_cons_of_error read, List.map_cons, none]
          exact ⟨nofun, fun same => by cases found <;> cases same⟩
      | ok value =>
          rw [values_cons_of_ok read, List.map_cons, Instruction.value_eq_ok_iff.1 read]
          cases found with
          | nil => cases values rest <;> simp [Except.map]
          | cons head tail =>
              rw [List.map_cons, List.cons.injEq, ← ih]
              cases values rest <;> simp [Except.map, eq_comm]

/-- Values become items, and are taken out of them as they were. -/
theorem values_pushing (found : List Value) : values (Machine.pushing found) = .ok found := by
  rw [values_eq_ok_iff, Machine.pushing, List.map_map]
  exact List.map_congr_left fun value _ => Machine.value?_ofValue value

/-- The items that a test finds true have the values that it finds true. -/
theorem values_filter {found : List Value} (data : values items = .ok found)
    (test : Value → Value) :
    values (items.filter (·.passes test)) = .ok (found.filter fun value => (test value).truth) := by
  induction items generalizing found with
  | nil =>
      obtain rfl := Except.ok.inj data
      rfl
  | cons item rest ih =>
      cases read : item.value with
      | error cause =>
          rw [values_cons_of_error read] at data
          cases data
      | ok value =>
          rw [values_cons_of_ok read] at data
          -- The items behind have values, or the whole list had none.
          cases others : values rest with
          | error cause =>
              rw [others] at data
              cases data
          | ok tail =>
              rw [others] at data
              obtain rfl := Except.ok.inj data
              have kept := ih others
              rw [List.filter_cons, List.filter_cons, Instruction.passes_of_ok read]
              split
              · rw [values_cons_of_ok read, kept]
                rfl
              · exact kept

/-- The first item that is no data is the failure of the list. -/
theorem exists_values_eq_error (code : ∃ item ∈ items, item.element.value? = none) :
    ∃ item ∈ items, item.element.value? = none ∧ values items =
      .error (.typeMismatch "list of values" s!"word {item.element.render}") := by
  induction items with
  | nil => simp at code
  | cons item rest ih =>
      cases read : item.element.value? with
      | none =>
          exact ⟨item, List.mem_cons_self, read,
            values_cons_of_error (Instruction.value_of_none read) rest⟩
      | some value =>
          obtain ⟨other, mem, none⟩ := code
          have later : other ∈ rest := by
            rcases List.mem_cons.1 mem with rfl | later
            · rw [read] at none
              cases none
            · exact later
          obtain ⟨first, mem, none, fails⟩ := ih ⟨other, later, none⟩
          refine ⟨first, List.mem_cons_of_mem _ mem, none, ?_⟩
          rw [values_cons_of_ok (Instruction.value_eq_ok_iff.2 read), fails]
          rfl

end Code

namespace Machine

/-- Called from the machine, the quotation takes these arguments, the last on top, and leaves the
result in their place. Whatever is below and wherever the call is made from, it succeeds and changes
nothing else but the place. -/
def Computes (machine : Machine) (quotation : Code) (arguments : List Value) (result : Value) :
    Prop :=
  ∀ (call : Call) (location : Option Location) (stack : List Value),
    let inside : Machine := { machine with calls := call :: machine.calls, location, stack }
    inside.ComesTo (.ok [result]) (runCode quotation (inside.topped arguments.reverse))

/-- Values that are pushed, and a built-in word that is called on them. -/
def phrase (values : List Value) (primitive : Primitive) (place : Option Location) : Code :=
  pushing values ++ [⟨place, .word ⟨primitive.name, .primitive primitive⟩⟩]

/-! ## One item after the other -/

/-- A word goes along a list, and the quotation computes a result for each item, up to the end of
the list or to an item that is no data. -/
inductive Passes (machine : Machine) (quotation : Code) :
    Loop → Code → Except Cause Value → Prop
  | done (loop : Loop) : Passes machine quotation loop [] (.ok loop.outcome)
  | item {loop : Loop} {item : Instruction} {rest : Code} {value result : Value}
      {outcome : Except Cause Value} (read : item.value = .ok value)
      (computes : machine.Computes quotation (loop.arguments value) result)
      (passes : Passes machine quotation (loop.gather item result) rest outcome) :
      Passes machine quotation loop (item :: rest) outcome
  | stuck {loop : Loop} {item : Instruction} {rest : Code} {cause : Cause}
      (read : item.value = .error cause) :
      Passes machine quotation loop (item :: rest) (.error cause)

variable {machine : Machine} {quotation items : Code} {outcome : Except Cause Value}

/-- The loop leaves the stack as it was, but for the result on top of it. -/
theorem Passes.comesTo {loop : Loop} (passes : machine.Passes quotation loop items outcome)
    (call : Call) (location : Option Location) (stack : List Value) :
    let inside : Machine := { machine with calls := call :: machine.calls, location, stack }
    inside.ComesTo (outcome.map ([·]))
      (loopItems (callWord inside.room) quotation loop items inside) := by
  intro inside
  induction passes generalizing location with
  | done loop => exact .ok [loop.outcome] location
  | stuck read =>
      rw [loopItems_of_error _ _ _ _ _ read]
      exact .error (inside.fault _) inside
  | @item loop item rest value result outcome read computes passes ih =>
      obtain ⟨location', ran⟩ := (computes call location stack).exists_ok
      have whole : LiveStack.runCode (callWord inside.room) quotation (fed loop value inside) =
          .ok () { inside.topped [result] with location := location' } := ran
      rw [loopItems_of_ok _ _ _ _ _ read, bind_apply, whole]
      -- The result is taken off again before the loop goes on.
      exact (ih location').elsewhere

/-- The words that go along a list take the values of their work, and do that. -/
theorem runPrimitive_of_loop {primitive : Primitive} {arguments : List Value} {loop : Loop}
    (work : primitive.work arguments = .loop loop (.list items) (.list quotation)) :
    primitive.arity = arguments.length ∧ ∀ call : Caller,
      runPrimitive call primitive arguments = loopItems call quotation loop items := by
  unfold Primitive.work at work
  split at work
  all_goals cases work
  · exact ⟨rfl, fun call => mapItems_eq call quotation items⟩
  · exact ⟨rfl, fun call => filterItems_eq call quotation items⟩
  · exact ⟨rfl, fun call => foldItems_eq call quotation items _⟩

/-- Called on its arguments, such a word comes to what its loop comes to. -/
theorem Passes.attains {loop : Loop} (passes : machine.Passes quotation loop items outcome)
    {primitive : Primitive} {arguments : List Value}
    (work : primitive.work arguments = .loop loop (.list items) (.list quotation))
    (place : Option Location) :
    machine.Attains 1 arguments.reverse
      [⟨place, .word ⟨primitive.name, .primitive primitive⟩⟩] (outcome.map ([·])) := by
  obtain ⟨arity, loops⟩ := runPrimitive_of_loop work
  refine .call (fun site => ?_) place
  intro opened _
  have taken : runHandler (callWord opened.room) ⟨primitive.name, .primitive primitive⟩
      (opened.topped arguments.reverse) =
        loopItems (callWord opened.room) quotation loop items opened := by
    rw [← List.append_nil arguments.reverse, runHandler_topped arity, loops]
    rfl
  rw [taken]
  exact passes.comesTo ⟨primitive.name, site⟩ (some site) machine.stack

/-! ## Functions on lists -/

variable {f : Value → Value} {combine : Value → Value → Value}

/-- What comes of a list depends on its values, if what comes of the rest does once the first is
taken in. -/
theorem Passes.cons {loop : Loop} {item : Instruction} {rest : Code} {finish : List Value → Value}
    (first : ∀ value, item.value = .ok value → ∃ result,
      machine.Computes quotation (loop.arguments value) result ∧
        machine.Passes quotation (loop.gather item result) rest
          ((Code.values rest).map fun values => finish (value :: values))) :
    machine.Passes quotation loop (item :: rest) ((Code.values (item :: rest)).map finish) := by
  cases read : item.value with
  | error cause =>
      rw [Code.values_cons_of_error read]
      exact .stuck read
  | ok value =>
      obtain ⟨result, computes, passes⟩ := first value read
      rw [Code.values_cons_of_ok read]
      refine .item read computes ?_
      cases others : Code.values rest with
      | error cause =>
          rw [others] at passes
          exact passes
      | ok values =>
          rw [others] at passes
          exact passes

theorem passes_map (pure : ∀ value, machine.Computes quotation [value] (f value))
    (items results : Code) :
    machine.Passes quotation (.map results) items
      ((Code.values items).map fun values => .list (results.reverse ++ pushing (values.map f))) := by
  induction items generalizing results with
  | nil =>
      have done : machine.Passes quotation (.map results) [] _ := .done _
      rwa [Loop.outcome, ← List.append_nil results.reverse] at done
  | cons item rest ih =>
      refine .cons fun value _ => ⟨f value, pure value, ?_⟩
      have others := ih (.made (.ofValue (f value)) :: results)
      simp only [List.reverse_cons, List.append_assoc] at others
      exact others

theorem passes_filter (pure : ∀ value, machine.Computes quotation [value] (f value))
    (items kept : Code) :
    machine.Passes quotation (.filter kept) items
      ((Code.values items).map fun _ => .list (kept.reverse ++ items.filter (·.passes f))) := by
  induction items generalizing kept with
  | nil =>
      have done : machine.Passes quotation (.filter kept) [] _ := .done _
      rwa [Loop.outcome, ← List.append_nil kept.reverse] at done
  | cons item rest ih =>
      refine .cons fun value read => ⟨f value, pure value, ?_⟩
      rw [Loop.gather, List.filter_cons, Instruction.passes_of_ok read]
      split
      · have others := ih (item :: kept)
        simp only [List.reverse_cons, List.append_assoc] at others
        exact others
      · exact ih kept

theorem passes_fold
    (pure : ∀ value result, machine.Computes quotation [value, result] (combine value result))
    (items : Code) (initial : Value) :
    machine.Passes quotation (.fold initial) items
      ((Code.values items).map (·.foldl (fun result value => combine value result) initial)) := by
  induction items generalizing initial with
  | nil => exact .done (.fold initial)
  | cons item rest ih =>
      exact .cons fun value _ => ⟨_, pure value initial, ih (combine value initial)⟩

/-! ## The words on their arguments -/

/-- Where a call is made from makes no difference to what a quotation computes there. -/
theorem Computes.elsewhere {arguments : List Value} {result : Value}
    (computes : machine.Computes quotation arguments result) (location : Option Location) :
    Computes { machine with location } quotation arguments result := computes

/-- A quotation behind another computes what it does from the result of that. -/
theorem Computes.append {p q : Code} {arguments : List Value} {between result : Value}
    (first : machine.Computes p arguments between) (second : machine.Computes q [between] result) :
    machine.Computes (p ++ q) arguments result := by
  intro call location stack inside
  obtain ⟨location', ran⟩ := (first call location stack).exists_ok
  rw [runCode_append, bind_apply, ran]
  exact (second call location' stack).elsewhere

/-- Values that are pushed are there for the word behind them. -/
theorem Attains.phrase {depth : Nat} {values before : List Value} {primitive : Primitive}
    {place : Option Location} {outcome : Except Cause (List Value)}
    (attains : machine.Attains depth (values.reverse ++ before)
      [⟨place, .word ⟨primitive.name, .primitive primitive⟩⟩] outcome) :
    machine.Attains depth before (phrase values primitive place) outcome := attains.pushing

theorem attains_map (pure : ∀ value, machine.Computes quotation [value] (f value)) (items : Code)
    (place : Option Location) :
    machine.Attains 1 [.list quotation, .list items]
      [⟨place, .word ⟨Primitive.map.name, .primitive .map⟩⟩]
      (((Code.values items).map fun values => .list (pushing (values.map f))).map ([·])) :=
  (passes_map pure items []).attains
    (show Primitive.map.work [.list items, .list quotation] = .loop (.map []) _ _ from rfl) place

theorem attains_filter (pure : ∀ value, machine.Computes quotation [value] (f value))
    (items : Code) (place : Option Location) :
    machine.Attains 1 [.list quotation, .list items]
      [⟨place, .word ⟨Primitive.filter.name, .primitive .filter⟩⟩]
      (((Code.values items).map fun _ => .list (items.filter (·.passes f))).map ([·])) :=
  (passes_filter pure items []).attains
    (show Primitive.filter.work [.list items, .list quotation] = .loop (.filter []) _ _ from rfl)
    place

theorem attains_fold
    (pure : ∀ value result, machine.Computes quotation [value, result] (combine value result))
    (items : Code) (initial : Value) (place : Option Location) :
    machine.Attains 1 [.list quotation, initial, .list items]
      [⟨place, .word ⟨Primitive.fold.name, .primitive .fold⟩⟩]
      (((Code.values items).map
        (·.foldl (fun result value => combine value result) initial)).map ([·])) :=
  (passes_fold pure items initial).attains
    (show Primitive.fold.work [.list items, initial, .list quotation] = .loop (.fold initial) _ _
      from rfl) place

theorem attains_length (items : Code) (place : Option Location) :
    machine.Attains 1 [.list items]
      [⟨place, .word ⟨(Primitive.operation .length).name, .primitive (.operation .length)⟩⟩]
      (.ok [.int (.ofNat items.length)]) :=
  (@Leaves.operation 0 [] .length [.list items] rfl place _).attains machine

/-- What code comes to on every machine, it computes on those that have room for its calls. -/
theorem computes_of_leaves {depth : Nat} {arguments : List Value} {result : Value}
    (leaves : Leaves depth arguments.reverse quotation (.ok [result]))
    (room : machine.calls.length + 1 + depth ≤ machine.limit) :
    machine.Computes quotation arguments result := by
  intro call location stack inside
  exact leaves inside (.inl room)

/-! ## Laws of the list words -/

/-- The code pushes this value on the machine's stack and changes nothing else but the place, if
there is room for one call. -/
def Yields (machine : Machine) (code : Code) (result : Value) : Prop :=
  machine.Attains 1 [] code (.ok [result])

/-- The code stops with a type error for an item of a list, which is no data, if there is room for
one call. -/
def Refuses (machine : Machine) (item : Instruction) (code : Code) : Prop :=
  machine.Attains 1 [] code
    (.error (.typeMismatch "list of values" s!"word {item.element.render}"))

/-- **The list words are the list functions.** Let three quotations compute functions of the values
they take, whatever is on the stack. Of a list of data, `map` makes the list of the results in order,
`filter` keeps the items whose results are true as they stand, and `fold` combines the values from
first to last; they take what they use off the stack, and change nothing else but the place. So two
maps are the map of both quotations, to filter again changes nothing, and a map keeps the length.
A list with items that are no data, words or tokens without a meaning, is refused by all three with
a type error about one of them. The three words are those of a new machine, which their names mean
until they are defined anew (`Becomes.bind_eq`). -/
theorem list_words_are_list_functions {limit : Nat} {host : Host} {made : Machine}
    (loaded : bootstrapped limit host = .ok made) {p q r : Code} {f g : Value → Value}
    (mapping : ∀ value, machine.Computes p [value] (f value))
    (testing : ∀ value, machine.Computes q [value] (g value))
    (folding : ∀ value result, machine.Computes r [value, result] (combine value result))
    (items : Code) (initial : Value) (place place' : Option Location) :
    let mapped := phrase [.list items, .list p] .map place
    let filtered := phrase [.list items, .list q] .filter place
    let folded := phrase [.list items, initial, .list r] .fold place
    (∀ primitive : Primitive,
      made.bind primitive.name = some ⟨primitive.name, .primitive primitive⟩) ∧
    (∀ values : List Value, items.map (·.element.value?) = values.map some →
      machine.Yields mapped (.list (pushing (values.map f))) ∧
      machine.Yields filtered (.list (items.filter (·.passes g))) ∧
      machine.Yields folded (values.foldl (fun result value => combine value result) initial) ∧
      (machine.Yields (mapped ++ phrase [.list q] .map place')
          (.list (pushing (values.map (g ∘ f)))) ∧
        machine.Yields (phrase [.list items, .list (p ++ q)] .map place)
          (.list (pushing (values.map (g ∘ f))))) ∧
      machine.Yields (filtered ++ phrase [.list q] .filter place')
        (.list (items.filter (·.passes g))) ∧
      (machine.Yields (mapped ++ phrase [] (.operation .length) place')
          (.int (.ofNat items.length)) ∧
        machine.Yields (phrase [.list items] (.operation .length) place)
          (.int (.ofNat items.length)))) ∧
    ((∃ item ∈ items, item.element.value? = none) → ∃ item ∈ items, item.element.value? = none ∧
      machine.Refuses item mapped ∧ machine.Refuses item filtered ∧
      machine.Refuses item folded) := by
  intro mapped filtered folded
  have maps := attains_map mapping items place
  have filters := attains_filter testing items place
  have folds := attains_fold folding items initial place
  refine ⟨fun primitive => ?_, fun values each => ?_, fun code => ?_⟩
  · obtain ⟨word, bound, is⟩ :=
      exists_bound loaded (show (Prelude.Item.primitive primitive).name? = some primitive.name
        from rfl)
    cases is
    exact bound
  · have data : Code.values items = .ok values := Code.values_eq_ok_iff.2 each
    rw [data] at maps filters folds
    have yieldsMapped : machine.Yields mapped (.list (pushing (values.map f))) := .phrase maps
    have yieldsFiltered : machine.Yields filtered (.list (items.filter (·.passes g))) :=
      .phrase filters
    refine ⟨yieldsMapped, yieldsFiltered, .phrase folds, ⟨?_, ?_⟩, ?_, ?_, ?_⟩
    · -- the results of the first map are the values of the second
      refine yieldsMapped.append fun location => .phrase ?_
      have again := attains_map (fun value => (testing value).elsewhere location)
        (pushing (values.map f)) place'
      rw [Code.values_pushing] at again
      rw [← List.map_map]
      exact again
    · have both := attains_map (fun value => (mapping value).append (testing (f value))) items place
      rw [data] at both
      exact .phrase both
    · refine yieldsFiltered.append fun location => .phrase ?_
      have again := attains_filter (fun value => (testing value).elsewhere location)
        (items.filter (·.passes g)) place'
      have same : (items.filter (·.passes g)).filter (·.passes g) = items.filter (·.passes g) := by
        simp
      rw [Code.values_filter data, same] at again
      exact again
    · refine yieldsMapped.append fun location => .phrase ?_
      have length : items.length = (pushing (values.map f)).length := by
        simpa [pushing] using congrArg List.length each
      rw [length]
      exact attains_length (pushing (values.map f)) place'
    · exact .phrase (attains_length items place)
  · obtain ⟨item, mem, none, fails⟩ := Code.exists_values_eq_error code
    rw [fails] at maps filters folds
    exact ⟨item, mem, none, .phrase maps, .phrase filters, .phrase folds⟩

/-- Each value of a list is put into a list of its own, also a value that is a list. A list that has
the word `dup` in it is refused. -/
theorem list_words_are_list_functions_of_wrapping :
    let fresh : Machine := new 8 .empty
    let wrap : Code := [.made (.quote []), .made (.word ⟨"cons", .primitive (.operation .cons)⟩)]
    let items := pushing [.int 0, .string "a", .list []]
    let dup : Instruction := .made (.word ⟨"dup", .primitive (.operation .dup)⟩)
    ∃ location fault last,
      runCode (phrase [.list items, .list wrap] .map none) fresh =
        .ok () { fresh.topped [.list (pushing [.list (pushing [.int 0]),
          .list (pushing [.string "a"]), .list (pushing [.list []])])] with location } ∧
      runCode (phrase [.list (items ++ [dup]), .list wrap] .map none) fresh = .error fault last ∧
      fault.cause = .typeMismatch "list of values" "word dup" := by
  intro fresh wrap items dup
  obtain ⟨made, loaded, -⟩ := exists_bootstrapped (show 0 < 50 by decide) .empty
  have wraps (value : Value) : fresh.Computes wrap [value] (.list (pushing [value])) := by
    have leaves : Leaves 1 [value] wrap (.ok [.list (pushing [value])]) := by
      have pushed : Leaves 1 [value] [.made (.quote [])] (.ok [.list [], value]) :=
        .of_still (.data rfl none)
      exact pushed.append
        (@Leaves.operation 0 [] .cons [value, .list []] rfl none "cons")
    exact computes_of_leaves leaves (by decide)
  have negates (value : Value) :
      fresh.Computes [.made (.word ⟨"not", .primitive (.operation .not)⟩)] [value]
        (.bool !value.truth) := by
    have leaves : Leaves 1 [value] _ _ :=
      @Leaves.operation 0 [] .not [value] rfl none "not"
    exact computes_of_leaves leaves (by decide)
  have compares (value result : Value) :
      fresh.Computes [.made (.word ⟨"=", .primitive (.operation .equal)⟩)] [value, result]
        (.bool (value.same result)) := by
    have leaves : Leaves 1 [result, value] _ _ :=
      @Leaves.operation 0 [] .equal [value, result] rfl none "="
    exact computes_of_leaves leaves (by decide)
  obtain ⟨-, data, -⟩ := list_words_are_list_functions loaded wraps negates compares items
    (.int 0) none none
  obtain ⟨-, -, code⟩ := list_words_are_list_functions loaded wraps negates compares
    (items ++ [dup]) (.int 0) none none
  have mapped : fresh.ComesTo _ _ := (data [.int 0, .string "a", .list []] rfl).1 (.inl (by decide))
  obtain ⟨item, mem, none, refuses, -⟩ :=
    code ⟨dup, List.mem_append_right _ List.mem_cons_self, rfl⟩
  obtain rfl : item = dup := by
    rcases List.mem_append.1 mem with data | last
    · obtain ⟨value, -, rfl⟩ := List.mem_map.1 data
      cases (value?_ofValue value).symm.trans none
    · exact List.mem_singleton.1 last
  have stopped : fresh.ComesTo _ _ := refuses (.inl (by decide))
  obtain ⟨location, maps⟩ := mapped.exists_ok
  obtain ⟨fault, last, stops, cause⟩ := stopped.exists_error
  exact ⟨location, fault, last, maps, stops, cause⟩

end Machine

end LiveStack
