import LiveStack.Proofs.Run.Legibility

/-!
# Reading back what is shown

What a machine shows as source text is read back as the same. Code that was read from a text is
printed so that it is read as the same code, as long as the words mean the same. A value on the
stack, whatever made it, is printed so that it is read as one instruction that pushes an equal
value, as long as its words still have a meaning, its other tokens have none as words, and no float
is in it.
-/

namespace LiveStack

open Execution

/-! ## Equality does not see places -/

mutual

theorem Element.same_bare (element other : Element) :
    element.bare.same other = element.same other := by
  match element, other with
  | .quote code, .quote code' =>
      rw [Element.bare, Element.same, Element.same, Code.same_bare code code']
  | .word _, _ | .literal _ _, _ | .unknown _, _ => rfl
  | .quote _, .word _ | .quote _, .literal _ _ | .quote _, .unknown _ => rfl

theorem Code.same_bare (code code' : List Instruction) :
    Code.same (Code.bare code) code' = Code.same code code' := by
  match code, code' with
  | [], _ => rfl
  | ⟨_, _⟩ :: _, [] => rfl
  | ⟨_, element⟩ :: rest, ⟨_, other⟩ :: rest' =>
      rw [Code.bare, Code.same, Code.same, Element.same_bare element other,
        Code.same_bare rest rest']

end

theorem Code.exists_of_bare_eq_singleton {code : List Instruction} {element : Element}
    (bare : Code.bare code = [⟨none, element⟩]) :
    ∃ item : Instruction, code = [item] ∧ item.element.bare = element := by
  match code with
  | [] => cases bare
  | [⟨location, found⟩] =>
      exact ⟨_, rfl, congrArg Instruction.element (List.head_eq_of_cons_eq bare)⟩
  | ⟨_, _⟩ :: ⟨_, _⟩ :: _ => cases List.tail_eq_of_cons_eq bare

theorem Element.render_ofValue (value : Value) :
    (Element.ofValue value).render = value.source := by
  cases value with
  | list code => rfl
  | int | float | bool | string => exact String.empty_append

/-- What is equal to a list is one, and pushes it. -/
theorem Element.pushes_of_same_quote {element : Element} {code : Code}
    (same : element.same (.quote code) = true) :
    ∃ pushed, element.value? = some (.list pushed) ∧
      Value.same (.list pushed) (.list code) = true := by
  cases element with
  | quote code' =>
      refine ⟨code', rfl, ?_⟩
      rwa [Element.same, ← Value.same] at same
  | word | literal | unknown =>
      rw [Element.same] at same
      · cases same
      all_goals nofun

/-- Data that is no float is equal to itself. -/
theorem Value.same_self {value : Value} (exact : value.isExact = true) :
    value.same value = true := by
  cases value with
  | int number => simp [same, sameAtom, isNumeric, sameNumber, isFloat, isInt]
  | bool truth => simp [same, sameAtom, isNumeric, sameNumber, isFloat, isInt]
  | string text => simp [same, sameAtom, isNumeric, isTextual]
  | float | list => cases exact

mutual

theorem Element.same_reread (binding : Binding) (element : Element)
    (every : element.Every fun atom => (atom.reread binding).same atom = true) :
    (element.reread binding).same element = true := by
  match element with
  | .word _ | .literal _ _ | .unknown _ => exact every
  | .quote code => exact Code.same_reread binding code every

theorem Code.same_reread (binding : Binding) (code : List Instruction)
    (every : Code.Every (fun atom => (atom.reread binding).same atom = true) code) :
    Code.same (Code.reread binding code) code = true := by
  match code with
  | [] => rfl
  | ⟨_, element⟩ :: rest =>
      rw [Code.reread, Code.same, Element.same_reread binding element every.1,
        Code.same_reread binding rest every.2]
      rfl

end

/-! ## What two properties give together -/

mutual

theorem Element.Every.imp {first second third : Element → Prop}
    (gives : ∀ atom, first atom → second atom → third atom) {element : Element}
    (every : element.Every first) (every' : element.Every second) : element.Every third := by
  match element with
  | .word _ | .literal _ _ | .unknown _ => exact gives _ every every'
  | .quote code => exact Code.Every.imp gives every every'

theorem Code.Every.imp {first second third : Element → Prop}
    (gives : ∀ atom, first atom → second atom → third atom) {code : List Instruction}
    (every : Code.Every first code) (every' : Code.Every second code) : Code.Every third code := by
  match code with
  | [] => trivial
  | ⟨_, _⟩ :: _ =>
      exact ⟨Element.Every.imp gives every.1 every'.1, Code.Every.imp gives every.2 every'.2⟩

end

/-- The token means now what kind of thing it is: a word has a meaning, a literal is no float, and
what is no word has none. A list is no token. -/
def Element.CurrentIn (dictionary : Dictionary) : Element → Prop
  | .word called => dictionary.contains called.name = true
  | .literal text value => value.isFloat = false ∧ dictionary.contains text = false
  | .unknown text => dictionary.contains text = false
  | .quote _ => False

namespace Machine

variable {machine : Machine}

theorem InStep.faithful (inStep : machine.InStep) : Binding.Faithful machine.bind := by
  intro name word bound
  rw [bind] at bound
  obtain ⟨entry, found, held⟩ := Option.bind_eq_some_iff.1 bound
  obtain ⟨-, -, word', held', named, -⟩ := inStep.get?_handler found
  obtain rfl : word = word' := Option.some.inj (held.symm.trans held')
  exact named

theorem InStep.bind_eq_none (inStep : machine.InStep) {text : String}
    (unknown : machine.dictionary.contains text = false) : machine.bind text = none := by
  rw [← Option.isNone_iff_eq_none, ← Option.not_isSome, inStep.bind_isSome, unknown]
  rfl

theorem InStep.exists_bind (inStep : machine.InStep) {name : String}
    (known : machine.dictionary.contains name = true) :
    ∃ word, machine.bind name = some word ∧ word.name = name := by
  rw [← inStep.bind_isSome] at known
  obtain ⟨word, bound⟩ := Option.isSome_iff_exists.1 known
  exact ⟨word, bound, inStep.faithful bound⟩

/-- A literal that is no float and whose text has no meaning as a word is read as itself. -/
theorem InStep.ofToken_literal (inStep : machine.InStep) {text : String} {value : Value}
    (legible : (Element.literal text value).Legible)
    (current : (Element.literal text value).CurrentIn machine.dictionary) :
    Token.Solid text ∧ value.isExact = true ∧
      Element.ofToken machine.bind text = .literal text value := by
  obtain ⟨notFloat, unnamed⟩ := current
  obtain ⟨solid, read⟩ : Token.Solid text ∧ Literal.read? text = some value :=
    legible.resolve_left (by simp [notFloat])
  refine ⟨solid, ?_, ?_⟩
  · cases value with
    | list code => exact absurd read Literal.read?_ne_list
    | float => cases notFloat
    | int | bool | string => rfl
  · rw [Element.ofToken, inStep.bind_eq_none unnamed, read]

/-- A token that means now what it meant is one token, and reads as an equal element. -/
theorem InStep.reread_current (inStep : machine.InStep) (atom : Element) (legible : atom.Legible)
    (current : atom.CurrentIn machine.dictionary) :
    Token.Solid atom.render ∧ (atom.reread machine.bind).same atom = true := by
  -- the source text of a token is the token itself
  have alone : ∀ {text : String}, Token.Solid text → Token.Solid ("" ++ text) := fun solid => by
    rwa [String.empty_append]
  cases atom with
  | quote code => exact current.elim
  | word word =>
      obtain ⟨name, handler⟩ := word
      obtain ⟨other, bound, named⟩ := inStep.exists_bind current
      have read : Element.ofToken machine.bind name = .word other := by
        rw [Element.ofToken, bound]
      refine ⟨alone (Token.solid_of_valid legible.1), ?_⟩
      rw [Element.reread, read, Element.same, named]
      exact beq_self_eq_true _
  | literal text value =>
      obtain ⟨solid, exact, read⟩ := inStep.ofToken_literal legible current
      refine ⟨alone solid, ?_⟩
      rw [Element.reread, read, Element.same, Value.same_self exact, beq_self_eq_true]
      rfl
  | unknown text =>
      obtain ⟨solid, noLiteral⟩ := legible
      have read : Element.ofToken machine.bind text = .unknown text := by
        rw [Element.ofToken, inStep.bind_eq_none current, noLiteral]
      refine ⟨alone solid, ?_⟩
      rw [Element.reread, read, Element.same]
      exact beq_self_eq_true _

/-- An element all of whose tokens mean what they meant is read from its source text, as one
element that is equal to it. -/
theorem InStep.ofSource_render (inStep : machine.InStep) {element : Element}
    (legible : element.Legible) (current : element.Every (Element.CurrentIn machine.dictionary))
    (name : String) :
    ∃ item : Instruction, Code.ofSource machine.bind name element.render = ([item], []) ∧
      item.element.bare = element.reread machine.bind ∧ item.element.same element = true := by
  have every := (Element.every_legible element).2 legible
  have solid : element.Every fun atom => Token.Solid atom.render :=
    every.imp (fun atom legible current => (inStep.reread_current atom legible current).1) current
  have same : (element.reread machine.bind).same element = true :=
    Element.same_reread machine.bind element
      (every.imp (fun atom legible current => (inStep.reread_current atom legible current).2)
        current)
  obtain ⟨code, read, bare⟩ := (Element.reads machine.bind element solid).ofSource name
  obtain ⟨item, rfl, found⟩ := Code.exists_of_bare_eq_singleton bare
  refine ⟨item, read, found, ?_⟩
  rw [← Element.same_bare, found, same]

/-! ## New machines -/

theorem Legible.foldl_addPrimitive (legible : machine.Legible) (primitives : List Primitive) :
    (primitives.foldl addPrimitive machine).Legible := by
  induction primitives generalizing machine with
  | nil => exact legible
  | cons primitive rest ih =>
      exact ih (legible.addWord (Word.legible_primitive primitive) none _ _)

theorem legible_new (limit : Nat) (host : Host) : (new limit host).Legible := by
  refine Legible.mark ⟨fun value mem => absurd mem List.not_mem_nil, ?_⟩
  intro layer mem word held
  obtain rfl := List.mem_singleton.1 mem
  exact absurd held (Array.not_mem_empty word)

/-- Running a text keeps a machine legible, whatever the text is. -/
theorem Legible.runSource (legible : machine.Legible) (name source : String) :
    (final (Machine.runSource name source machine)).Legible :=
  (legible_read legible (fun _ mem => absurd mem List.not_mem_nil) name source).final
    (endsIn_runSource machine name source)

theorem Legible.runCode (legible : machine.Legible) {code : Code}
    (code' : ∀ item ∈ code, item.Legible) :
    (final (Machine.runCode code machine)).Legible :=
  Execution.Legible.final ⟨legible, List.forall_mem_singleton.2 code'⟩
    (endsIn_runCode machine code)

theorem Legible.call (legible : machine.Legible) (site : Location) {word : Word}
    (word' : word.Legible) : (final (Machine.call site word machine)).Legible :=
  (legible_enter legible (fun _ mem => absurd mem List.not_mem_nil) site word').final
    (endsIn_call machine site word)

theorem legible_bootstrapped {limit : Nat} {host : Host}
    (made : bootstrapped limit host = .ok machine) : machine.Legible := by
  obtain ⟨loaded, run, rfl⟩ := exists_loaded made
  have start : (builtIn limit host).Legible :=
    (legible_new limit host).foldl_addPrimitive Primitive.all
  have runs : ∀ machine name source, Legible machine →
      Legible (final (Machine.runSource name source machine)) := fun _ name source legible =>
    legible.runSource name source
  have kept := keeps_forM_load runs Prelude.definitions start
  rw [run] at kept
  exact Legible.mark (kept.withStack fun value mem => absurd mem List.not_mem_nil)

/-! ## Machines on which only what was read is run -/

theorem Legible.release {released : Machine} (legible : machine.Legible)
    (done : machine.release = .ok released) : released.Legible := by
  obtain ⟨host, limit, stack, location, calls, ⟨newest, older⟩, ⟨newest', older'⟩,
    diagnostics⟩ := machine
  have below := (List.forall_mem_cons.1 legible.words).2
  cases older with
  | nil => cases done
  | cons top below' =>
      cases older' with
      | nil => cases done
      | cons top' below'' =>
          obtain rfl := Except.ok.inj done
          exact ⟨legible.stack, below⟩

theorem Legible.reset {fresh : Machine} (legible : machine.Legible)
    (done : machine.reset = .ok fresh) : fresh.Legible := by
  rw [Machine.reset] at done
  cases released : machine.release with
  | error refused =>
      rw [released] at done
      cases done
  | ok left =>
      rw [released] at done
      obtain rfl := Except.ok.inj done
      have left' := legible.release released
      exact Legible.mark ⟨fun value mem => absurd mem List.not_mem_nil, left'.words⟩

/-- What an action brings with it from elsewhere is legible. -/
def Action.Legible : Action → Prop
  | .code body => ∀ item ∈ body, item.Legible
  | .call _ word => word.Legible
  | .push value => value.Legible
  | .source _ _ | .reset | .mark | .release | .pop | .clear => True

theorem Legible.perform (legible : machine.Legible) {action : Action} (action' : action.Legible) :
    (action.perform machine).Legible := by
  cases action with
  | source name text =>
      rw [Action.perform, attempt_snd]
      exact legible.runSource name text
  | code body =>
      rw [Action.perform, attempt_snd]
      exact legible.runCode action'
  | call site word =>
      rw [Action.perform, attempt_snd]
      exact legible.call site action'
  | reset =>
      rw [Action.perform]
      cases done : machine.reset with
      | error refused => exact legible
      | ok fresh => exact legible.reset done
  | mark => exact legible.mark
  | release =>
      rw [Action.perform]
      cases done : machine.release with
      | error refused => exact legible
      | ok released => exact legible.release done
  | push value => exact legible.push action'
  | pop =>
      rw [Action.perform, attempt_snd, pop_apply]
      cases popped : top machine with
      | error cause => exact legible
      | ok split => exact legible.withStack (top_gives legible.stack split popped).2
  | clear => exact legible.withStack fun value mem => absurd mem List.not_mem_nil

/-- The machines that come about from one with the words of the language. Texts are run on them,
code that one of them reads, words that one of them binds, and values from the stack of one of
them; data may come from elsewhere. -/
inductive Arises (limit : Nat) (host : Host) : Machine → Prop
  | bootstrapped {machine : Machine} (made : bootstrapped limit host = .ok machine) :
      Arises limit host machine
  | source {machine : Machine} (arises : Arises limit host machine) (name text : String) :
      Arises limit host (Action.perform machine (.source name text))
  | code {machine reader : Machine} (arises : Arises limit host machine)
      (reads : Arises limit host reader) (name text : String) :
      Arises limit host (Action.perform machine (.code (Code.ofSource reader.bind name text).1))
  | call {machine binder : Machine} (arises : Arises limit host machine)
      (binds : Arises limit host binder) {name : String} {word : Word}
      (bound : binder.bind name = some word) (site : Location) :
      Arises limit host (Action.perform machine (.call site word))
  | push {machine owner : Machine} (arises : Arises limit host machine)
      (owns : Arises limit host owner) {value : Value} (mem : value ∈ owner.stack) :
      Arises limit host (Action.perform machine (.push value))
  | data {machine : Machine} (arises : Arises limit host machine) {value : Value}
      (atom : value.IsAtom) : Arises limit host (Action.perform machine (.push value))
  | plain {machine : Machine} (arises : Arises limit host machine) {action : Action}
      (plain : action ∈ [.reset, .mark, .release, .pop, .clear]) :
      Arises limit host (action.perform machine)
  | drain {machine : Machine} (arises : Arises limit host machine) :
      Arises limit host { machine with diagnostics := [] }

theorem Arises.inStep {limit : Nat} {host : Host} (arises : Arises limit host machine) :
    machine.InStep := by
  induction arises with
  | bootstrapped made => exact inStep_bootstrapped made
  | drain _ ih => exact ⟨ih.stacked, ih.contexts⟩
  | source _ _ _ ih | call _ _ _ _ ih _ | push _ _ _ ih _ | data _ _ ih | plain _ _ ih
  | code _ _ _ _ ih _ => exact ih.perform _

theorem Arises.legible {limit : Nat} {host : Host} (arises : Arises limit host machine) :
    machine.Legible := by
  induction arises with
  | bootstrapped made => exact legible_bootstrapped made
  | source _ name text ih => exact ih.perform (trivial : Action.Legible (.source name text))
  | code _ _ name text ih reader =>
      have read : Action.Legible (.code _) := reader.ofSource name text
      exact ih.perform read
  | call _ _ bound site ih binder =>
      have bound' : Action.Legible (.call site _) := binder.bind bound
      exact ih.perform bound'
  | push _ _ mem ih owner =>
      have owned : Action.Legible (.push _) := owner.stack _ mem
      exact ih.perform owned
  | data _ atom ih =>
      have legible : Action.Legible (.push _) := Value.legible_hereditary.atom atom
      exact ih.perform legible
  | @plain machine _ action plain ih =>
      have legible : action.Legible := by
        simp only [List.mem_cons, List.not_mem_nil, or_false] at plain
        rcases plain with rfl | rfl | rfl | rfl | rfl <;> trivial
      exact ih.perform legible
  | drain _ ih => exact ih.congr rfl rfl

/-! ## Printing and reading -/

/-- The element that is read from the source text of a value pushes an equal value. -/
theorem InStep.pushes_of_read (inStep : machine.InStep) {value : Value} {element : Element}
    (legible : (Element.ofValue value).Legible)
    (current : (Element.ofValue value).Every (Element.CurrentIn machine.dictionary))
    (bare : element.bare = (Element.ofValue value).reread machine.bind)
    (same : element.same (Element.ofValue value) = true) :
    ∃ pushed, element.value? = some pushed ∧ pushed.same value = true ∧
      pushed.typeName = value.typeName := by
  -- data is read as the very literal that it was written as
  have data (literal : Element.ofValue value = .literal value.source value) :
      ∃ pushed, element.value? = some pushed ∧ pushed.same value = true ∧
        pushed.typeName = value.typeName := by
    rw [literal] at legible current bare
    obtain ⟨-, exact, again⟩ := inStep.ofToken_literal legible current
    have found : element = .literal value.source value := by
      cases element with
      | quote code => cases bare.trans again
      | word | literal | unknown => exact bare.trans again
    exact ⟨value, by rw [found]; rfl, Value.same_self exact, rfl⟩
  cases value with
  | list code =>
      obtain ⟨pushed, pushes, equal⟩ := Element.pushes_of_same_quote same
      exact ⟨.list pushed, pushes, equal, rfl⟩
  | int | float | bool | string => exact data rfl

/-- What is on the stack is shown so that it is read back. All code that comes about is legible: a
literal that is no float is read from its text as its value. The source text of a value is read
without a problem, as one instruction, and that pushes an equal value of the same type, if each
word in the value has a meaning now, no other token has one as a word, and no float is in it. -/
theorem printed_values_read_back {limit : Nat} {host : Host} (arises : Arises limit host machine) :
    machine.Legible ∧
    ∀ value ∈ machine.stack,
      (Element.ofValue value).Every (Element.CurrentIn machine.dictionary) →
      ∀ name, ∃ item pushed,
        Code.ofSource machine.bind name value.source = ([item], []) ∧
        item.element.value? = some pushed ∧ pushed.same value = true ∧
        pushed.typeName = value.typeName := by
  have legible := arises.legible
  refine ⟨legible, ?_⟩
  intro value mem current name
  have legible' := Element.legible_ofValue (legible.stack value mem)
  obtain ⟨item, read, bare, same⟩ := arises.inStep.ofSource_render legible' current name
  obtain ⟨pushed, pushes, equal⟩ := arises.inStep.pushes_of_read legible' current bare same
  refine ⟨item, pushed, ?_, pushes, equal⟩
  rw [← Element.render_ofValue, read]

/-- A new machine leaves on its stack a list with a word that it knows, a number that is not
written as it is printed, a string with a quote in it, and a list with a word that it does not
know. -/
theorem printed_values_read_back_of_nested :
    ∃ machine value, Arises 50 .empty machine ∧ value ∈ machine.stack ∧
      value.source = "[ define 007 \"a\\\"b\" [ later ] ]" ∧
      (Element.ofValue value).Every (Element.CurrentIn machine.dictionary) ∧
      ∃ item pushed, Code.ofSource machine.bind "<again>" value.source = ([item], []) ∧
        item.element.value? = some pushed ∧ pushed.same value = true ∧
        pushed.typeName = value.typeName := by
  obtain ⟨start, made, ready⟩ := exists_bootstrapped (show 0 < 50 by decide) .empty
  let source := "[ define 007 \"a\\\"b\" [ later ] ]"
  have defines : start.bind "define" = some ⟨"define", .primitive .define⟩ := ready.defining
  have seven : start.bind "007" = none := ready.bind_eq_none_of (by decide) (by decide)
  have later : start.bind "later" = none := ready.bind_eq_none_of (by decide) (by decide)
  have quoted : start.bind "\"a\\\"b\"" = none := ready.orderly.bind_quoted (by decide)
  have lexed : Token.ofSource "<text>" source =
      ([⟨.opening, ⟨"<text>", 1, 1⟩⟩, ⟨.word "define", ⟨"<text>", 1, 3⟩⟩,
        ⟨.word "007", ⟨"<text>", 1, 10⟩⟩, ⟨.string "\"a\\\"b\"", ⟨"<text>", 1, 14⟩⟩,
        ⟨.opening, ⟨"<text>", 1, 21⟩⟩, ⟨.word "later", ⟨"<text>", 1, 23⟩⟩,
        ⟨.closing, ⟨"<text>", 1, 29⟩⟩, ⟨.closing, ⟨"<text>", 1, 31⟩⟩], []) := by
    decide
  have number : Literal.read? "007" = some (.int 7) := rfl
  have text : Literal.read? "\"a\\\"b\"" = some (.string "a\"b") := rfl
  have unread : Literal.read? "later" = none := by decide
  let items : Code := [⟨some ⟨"<text>", 1, 3⟩, .word ⟨"define", .primitive .define⟩⟩,
    ⟨some ⟨"<text>", 1, 10⟩, .literal "007" (.int 7)⟩,
    ⟨some ⟨"<text>", 1, 14⟩, .literal "\"a\\\"b\"" (.string "a\"b")⟩,
    ⟨some ⟨"<text>", 1, 21⟩, .quote [⟨some ⟨"<text>", 1, 23⟩, .unknown "later"⟩]⟩]
  have reads : Code.ofSource start.bind "<text>" source =
      ([⟨some ⟨"<text>", 1, 1⟩, .quote items⟩], []) := by
    rw [Code.ofSource, lexed]
    simp [Code.ofTokens, Code.Parser.step, Code.Parser.close, Code.Parser.finish,
      Element.ofToken, defines, seven, later, quoted, number, text, unread, items]
  have run : Machine.runSource "<text>" source start = .ok () { start with
      diagnostics := start.diagnostics ++ []
      location := some ⟨"<text>", 1, 1⟩
      stack := .list items :: start.stack } :=
    (endsIn_runSource start _ _).unique (endsIn_of_leads ⟨2, by
      simp [ofSource, Execution.read, reads, Execution.after, step, follow, settle]⟩)
  have arises : Arises 50 .empty (Action.perform start (.source "<text>" source)) :=
    .source (.bootstrapped made) _ _
  rw [Action.perform, attempt_snd, run] at arises
  have shown : (Value.list items).source = source := by decide
  have mem : Value.list items ∈ Value.list items :: start.stack := List.mem_cons_self
  have current : (Element.ofValue (.list items)).Every
      (Element.CurrentIn start.dictionary) := by
    have meanings := (inStep_bootstrapped made).bind_isSome
    simp [items, Element.ofValue, Element.Every, Code.Every, Element.CurrentIn, Value.isFloat,
      ← meanings, defines, seven, later, quoted]
  obtain ⟨item, pushed, read, pushes⟩ :=
    (printed_values_read_back arises).2 _ mem current "<again>"
  exact ⟨_, _, arises, mem, shown, current, item, pushed, read, pushes⟩

/-- What any text is read as, however malformed the text is, is printed so that the same machine
reads it as the same code, at every depth and but for places only, and without a problem. -/
theorem parsing_undoes_printing {limit : Nat} {host : Host} (reached : Reached limit host machine)
    (name source name' : String) :
    ∃ code, Code.ofSource machine.bind name' (Code.ofSource machine.bind name source).1.render =
        (code, []) ∧
      Code.bare code = Code.bare (Code.ofSource machine.bind name source).1 :=
  Code.ofSource_render_ofSource reached.inStep.faithful name source name'

/-- A text without blanks, with a closing bracket too many and one too few, is printed with the
missing bracket and with blanks, and is read as the same again. -/
theorem parsing_undoes_printing_of_malformed :
    ∃ machine : Machine, Reached 50 .empty machine ∧
      (Code.ofSource machine.bind "<text>" "[\"a\"x]][define").2 ≠ [] ∧
      (Code.ofSource machine.bind "<text>" "[\"a\"x]][define").1.render =
        "[ \"a\" x ] [ define ]" ∧
      ∃ code, Code.ofSource machine.bind "<again>"
          (Code.ofSource machine.bind "<text>" "[\"a\"x]][define").1.render = (code, []) ∧
        Code.bare code =
          Code.bare (Code.ofSource machine.bind "<text>" "[\"a\"x]][define").1 := by
  obtain ⟨start, made, ready⟩ := exists_bootstrapped (show 0 < 50 by decide) .empty
  have reached : Reached 50 .empty start := .bootstrapped made
  have defines : start.bind "define" = some ⟨"define", .primitive .define⟩ := ready.defining
  have unknown : start.bind "x" = none := ready.bind_eq_none_of (by decide) (by decide)
  have quoted : start.bind "\"a\"" = none := ready.orderly.bind_quoted (by decide)
  have text : Literal.read? "\"a\"" = some (.string "a") := rfl
  have unread : Literal.read? "x" = none := by decide
  have lexed : Token.ofSource "<text>" "[\"a\"x]][define" =
      ([⟨.opening, ⟨"<text>", 1, 1⟩⟩, ⟨.string "\"a\"", ⟨"<text>", 1, 2⟩⟩,
        ⟨.word "x", ⟨"<text>", 1, 5⟩⟩, ⟨.closing, ⟨"<text>", 1, 6⟩⟩,
        ⟨.closing, ⟨"<text>", 1, 7⟩⟩, ⟨.opening, ⟨"<text>", 1, 8⟩⟩,
        ⟨.word "define", ⟨"<text>", 1, 9⟩⟩], []) := by
    decide
  have reads : Code.ofSource start.bind "<text>" "[\"a\"x]][define" =
      ([⟨some ⟨"<text>", 1, 1⟩, .quote
          [⟨some ⟨"<text>", 1, 2⟩, .literal "\"a\"" (.string "a")⟩,
            ⟨some ⟨"<text>", 1, 5⟩, .unknown "x"⟩]⟩,
        ⟨some ⟨"<text>", 1, 8⟩, .quote
          [⟨some ⟨"<text>", 1, 9⟩, .word ⟨"define", .primitive .define⟩⟩]⟩],
        [.reading ⟨"<text>", 1, 7⟩ .unbalancedClose]) := by
    rw [Code.ofSource, lexed]
    simp [Code.ofTokens, Code.Parser.step, Code.Parser.close, Code.Parser.finish,
      Element.ofToken, defines, unknown, quoted, text, unread]
  refine ⟨start, reached, ?_, ?_, parsing_undoes_printing reached "<text>" _ "<again>"⟩
  · rw [reads]
    exact List.cons_ne_nil _ _
  · rw [reads]
    decide

end Machine

end LiveStack
