import LiveStack.Proofs.Run.Lexicon

/-!
# The prelude loads

Every line of the prelude is a definition, and no line gives `define` another meaning. So each line
leaves a machine that is ready for the next one, and a machine can be made for every limit that
leaves room for a call. It knows the built-in words and those of the prelude, and a reset comes back
to it.
-/

namespace LiveStack

open Execution Run

namespace Machine

/-! ## Loading -/

/-- A machine between two lines of the prelude. -/
structure Ready (machine : Machine) : Prop where
  orderly : machine.Orderly
  defining : machine.Defining
  idle : machine.calls = []
  clean : machine.diagnostics = []
  room : 0 < machine.limit
  known : ∀ name, (machine.bind name).isSome →
    name ∈ Prelude.names ∨ ∃ primitive : Primitive, name = primitive.name

open Prelude in
/-- Loading the line of a word gives its name the meaning that it has in the table. -/
theorem Ready.load {machine : Machine} (ready : machine.Ready) {known : List Derived}
    (means : Means machine.bind known) {word : Derived}
    (used : Item.usesAll known word.body = true) {line : String} (isIn : word.IsIn line.toList) :
    ∃ loaded, Prelude.load line machine = .ok () loaded ∧ loaded.Ready ∧
      Means loaded.bind (word :: known) := by
  obtain ⟨tokens, body, lexed, lexemes, defines⟩ := isIn.defines
  obtain ⟨orderly, defining, idle, clean, room, listed⟩ := ready
  obtain ⟨place, run⟩ := runSource_defines orderly defining (by rw [idle]; exact room) lexed defines
  have orderly' : Orderly { machine with location := some place } := ⟨orderly.1, orderly.2⟩
  have binds := bind_define orderly' word.name (Code.ofTokens machine.bind body).1
  have mem := word.name_mem
  -- Of all names only that of the word has changed its meaning.
  refine ⟨_, ?_, ⟨orderly'.define (Code.ofTokens machine.bind body).1 defines.valid, ?_, idle,
    clean, room, ?_⟩, ?_, ?_, ?_⟩
  · simp only [Prelude.load, bind_apply, run, get_apply, define, addWord, clean]
    rfl
  · rw [Defining, binds, if_neg (word.name_ne .define).symm]
    exact defining
  · intro name bound
    rw [binds] at bound
    by_cases same : name = word.name
    · exact .inl (same ▸ mem)
    · rw [if_neg same] at bound
      exact listed name bound
  · intro primitive
    rw [binds, if_neg (word.name_ne primitive).symm]
    exact means.primitive primitive
  · intro other earlier
    by_cases same : other = word
    · subst same
      exact ⟨_, by rw [binds, if_pos rfl], Item.reads_lexemesAll means _ used lexemes⟩
    · rw [binds, if_neg fun names => same (Derived.name_injective names)]
      exact means.word other ((List.mem_cons.1 earlier).resolve_left same)
  · intro text other other'
    have differs : text ≠ word.name := fun same => other (same ▸ mem)
    rw [binds, if_neg differs]
    exact means.other text other other'

open Prelude in
theorem Ready.forM_load {machine : Machine} (ready : machine.Ready) {known words : List Derived}
    (means : Means machine.bind known) {lines : List String}
    (isIn : List.Forall₂ (fun word line => word.IsIn line.toList) words lines)
    (used : ordered known words = true) :
    ∃ loaded, lines.forM Prelude.load machine = .ok () loaded ∧ loaded.Ready ∧
      Means loaded.bind (words.reverse ++ known) := by
  induction isIn generalizing machine known with
  | nil => exact ⟨machine, rfl, ready, means⟩
  | @cons word line words lines isIn _ ih =>
      obtain ⟨used, used'⟩ := Bool.and_eq_true_iff.1 used
      obtain ⟨first, run, ready', means'⟩ := ready.load means used isIn
      obtain ⟨last, run', ready'', means''⟩ := ih ready' means' used'
      refine ⟨last, ?_, ready'', ?_⟩
      · show (Prelude.load line >>= fun _ => lines.forM Prelude.load) machine = _
        rw [bind_apply, run]
        exact run'
      · rw [List.reverse_cons, List.append_assoc]
        exact means''

/-! ## The built-in words -/

theorem head?_name (primitive : Primitive) : primitive.name.toList.head? ≠ some '"' := by
  cases primitive with
  | operation op => cases op <;> decide
  | _ => decide

theorem Orderly.addPrimitive {machine : Machine} (orderly : machine.Orderly)
    (primitive : Primitive) : (machine.addPrimitive primitive).Orderly :=
  orderly.addWord _ _ _ _ (head?_name primitive)

/-- A machine knows no names but those of built-in words. -/
def BuiltIn (machine : Machine) : Prop :=
  ∀ name, (machine.bind name).isSome → ∃ primitive : Primitive, name = primitive.name

theorem foldl_addPrimitive {machine : Machine} (orderly : machine.Orderly)
    (builtIn : machine.BuiltIn) (primitives : List Primitive) :
    (primitives.foldl addPrimitive machine).Orderly ∧
      (primitives.foldl addPrimitive machine).BuiltIn ∧
      ∀ primitive : Primitive, primitive ∈ primitives ∨
          machine.bind primitive.name = some ⟨primitive.name, .primitive primitive⟩ →
        (primitives.foldl addPrimitive machine).bind primitive.name =
          some ⟨primitive.name, .primitive primitive⟩ := by
  induction primitives generalizing machine with
  | nil => exact ⟨orderly, builtIn, fun _ known => known.resolve_left List.not_mem_nil⟩
  | cons first rest ih =>
      have bound (name : String) : (machine.addPrimitive first).bind name =
          if name = first.name then some ⟨first.name, .primitive first⟩
          else machine.bind name := bind_addWord orderly ..
      have builtIn' : (machine.addPrimitive first).BuiltIn := by
        intro name isBound
        by_cases same : name = first.name
        · exact ⟨first, same⟩
        · rw [bound, if_neg same] at isBound
          exact builtIn name isBound
      obtain ⟨orderly', builtIn', binds⟩ := ih (orderly.addPrimitive first) builtIn'
      refine ⟨orderly', builtIn', fun primitive known => binds primitive ?_⟩
      -- A primitive that was there before keeps its meaning, since no other has its name.
      by_cases same : primitive = first
      · subst same
        exact .inr ((bound _).trans (if_pos rfl))
      · refine known.imp (fun mem => (List.mem_cons.1 mem).resolve_left same) fun known => ?_
        rw [bound, if_neg fun names => same (Primitive.name_injective names)]
        exact known

theorem orderly_new (limit : Nat) (host : Host) : (new limit host).Orderly :=
  ⟨fun _ _ => rfl, nofun⟩

/-- The machine that the prelude is loaded into. -/
def builtIn (limit : Nat) (host : Host) : Machine :=
  Primitive.all.foldl addPrimitive (new limit host)

/-- The built-in words are known before the prelude is loaded, and no others. -/
theorem words_builtIn (limit : Nat) (host : Host) :
    (builtIn limit host).Orderly ∧ (builtIn limit host).BuiltIn ∧
      ∀ primitive : Primitive, (builtIn limit host).bind primitive.name =
        some ⟨primitive.name, .primitive primitive⟩ := by
  have empty : (new limit host).BuiltIn := fun name isBound => by cases isBound
  obtain ⟨orderly, builtIn, binds⟩ :=
    foldl_addPrimitive (orderly_new limit host) empty Primitive.all
  exact ⟨orderly, builtIn, fun primitive => binds primitive (.inl (Primitive.mem_all primitive))⟩

theorem ready_builtIn {limit : Nat} (room : 0 < limit) (host : Host) :
    (builtIn limit host).Ready := by
  obtain ⟨orderly, builtIn, binds⟩ := words_builtIn limit host
  exact ⟨orderly, binds .define, rfl, rfl, room, fun name isBound => .inr (builtIn name isBound)⟩

theorem means_builtIn (limit : Nat) (host : Host) :
    Prelude.Means (builtIn limit host).bind [] := by
  obtain ⟨-, builtIn, binds⟩ := words_builtIn limit host
  refine ⟨binds, nofun, fun text _ other => ?_⟩
  cases found : (Machine.builtIn limit host).bind text with
  | none => rfl
  | some word =>
      obtain ⟨primitive, rfl⟩ := builtIn text (by rw [found]; rfl)
      exact absurd (List.mem_map_of_mem (Primitive.mem_all primitive)) other

theorem bootstrapped_of_ok {limit : Nat} {host : Host} {loaded : Machine}
    (run : Prelude.definitions.forM Prelude.load (builtIn limit host) = .ok () loaded) :
    bootstrapped limit host = .ok (mark { loaded with stack := [] }) := by
  unfold bootstrapped
  extract_lets machine
  split
  · next value last same =>
      cases run.symm.trans same
      rfl
  · next fault last same => cases run.symm.trans same

theorem bootstrapped_of_error {limit : Nat} {host : Host} {fault : Fault} {stopped : Machine}
    (run : Prelude.definitions.forM Prelude.load (builtIn limit host) = .error fault stopped) :
    bootstrapped limit host = .error fault := by
  unfold bootstrapped
  extract_lets machine
  split
  · next value last same => cases run.symm.trans same
  · next fault last same =>
      cases run.symm.trans same
      rfl

/-- A machine that was made is the one that the prelude left, with a context marked above it. -/
theorem exists_loaded {limit : Nat} {host : Host} {machine : Machine}
    (made : bootstrapped limit host = .ok machine) :
    ∃ loaded, Prelude.definitions.forM Prelude.load (builtIn limit host) = .ok () loaded ∧
      machine = mark { loaded with stack := [] } := by
  cases run : Prelude.definitions.forM Prelude.load (builtIn limit host) with
  | error fault stopped =>
      rw [bootstrapped_of_error run] at made
      cases made
  | ok value loaded =>
      rw [bootstrapped_of_ok run] at made
      exact ⟨loaded, rfl, (Except.ok.inj made).symm⟩

theorem marked_of_bootstrapped {limit : Nat} {host : Host} {machine : Machine}
    (made : bootstrapped limit host = .ok machine) : machine.base.Marked := by
  obtain ⟨loaded, -, rfl⟩ := exists_loaded made
  exact ⟨List.cons_ne_nil _ _, List.cons_ne_nil _ _⟩

/-- A line that was loaded left no call open and no problem behind. -/
theorem idle_of_load {line : String} {machine loaded : Machine}
    (run : Prelude.load line machine = .ok () loaded) :
    loaded.calls = machine.calls ∧ loaded.diagnostics = [] := by
  have balanced := balanced_runSource machine Prelude.sourceName line
  rw [Prelude.load, bind_apply] at run
  cases ran : Machine.runSource Prelude.sourceName line machine with
  | error fault stopped => simp [ran] at run
  | ok value last =>
      rw [ran] at run balanced
      simp only [bind_apply, get_apply] at run
      cases problems : last.diagnostics with
      | nil =>
          rw [problems] at run
          obtain rfl : last = loaded := (EStateM.Result.ok.inj run).2
          exact ⟨balanced.1, problems⟩
      | cons problem rest =>
          rw [problems] at run
          cases run

theorem idle_of_forM_load {lines : List String} {machine loaded : Machine}
    (clean : machine.diagnostics = [])
    (run : lines.forM Prelude.load machine = .ok () loaded) :
    loaded.calls = machine.calls ∧ loaded.diagnostics = [] := by
  induction lines generalizing machine with
  | nil =>
      obtain rfl : machine = loaded := (EStateM.Result.ok.inj run).2
      exact ⟨rfl, clean⟩
  | cons line rest ih =>
      replace run : (Prelude.load line >>= fun _ => rest.forM Prelude.load) machine =
        .ok () loaded := run
      rw [bind_apply] at run
      cases ran : Prelude.load line machine with
      | error fault stopped => simp [ran] at run
      | ok value first =>
          rw [ran] at run
          obtain ⟨calls, clean⟩ := idle_of_load ran
          obtain ⟨calls', clean'⟩ := ih clean run
          exact ⟨calls'.trans calls, clean'⟩

/-- A machine that was made has nothing on its stack, no call open and no problem to show, and a
reset comes back to it. -/
theorem idle_of_bootstrapped {limit : Nat} {host : Host} {machine : Machine}
    (made : bootstrapped limit host = .ok machine) :
    machine.stack = [] ∧ machine.calls = [] ∧ machine.diagnostics = [] ∧
      machine.reset = .ok { machine with location := none } := by
  obtain ⟨loaded, run, rfl⟩ := exists_loaded made
  obtain ⟨calls, clean⟩ := idle_of_forM_load rfl run
  refine ⟨rfl, calls, clean, ?_⟩
  replace calls : loaded.calls = [] := calls
  simp only [mark, reset, release, Dictionary.mark, Dictionary.release, Layers.mark,
    Layers.release, Bind.bind, Except.bind, pure, Except.pure, calls, clean]

/-- A machine can be made for every limit that leaves room for a call, and the names of the prelude
mean in it what the table says. -/
theorem exists_bootstrapped_means {limit : Nat} (room : 0 < limit) (host : Host) :
    ∃ machine, bootstrapped limit host = .ok machine ∧ machine.Ready ∧
      Prelude.Means machine.bind Prelude.Derived.all.reverse := by
  obtain ⟨loaded, run, ⟨orderly, defining, idle, clean, room, known⟩, means⟩ :=
    (ready_builtIn room host).forM_load (means_builtIn limit host) Prelude.Derived.isIn_definitions
      Prelude.ordered_all
  have orderly' : Orderly { loaded with stack := [] } := ⟨orderly.1, orderly.2⟩
  have binds := bind_mark orderly'
  refine ⟨_, bootstrapped_of_ok run, ⟨orderly'.mark, ?_, idle, clean, room, ?_⟩, ?_⟩
  · rw [Defining, binds]
    exact defining
  · rw [binds]
    exact known
  · rw [binds]
    exact means

/-- A machine can be made for every limit that leaves room for a call. -/
theorem exists_bootstrapped {limit : Nat} (room : 0 < limit) (host : Host) :
    ∃ machine, bootstrapped limit host = .ok machine ∧ machine.Ready := by
  obtain ⟨machine, made, ready, -⟩ := exists_bootstrapped_means room host
  exact ⟨machine, made, ready⟩

/-- Where there is no room for a call, no line is loaded. -/
theorem load_ne_ok_of_full {machine : Machine} (orderly : machine.Orderly)
    (defining : machine.Defining) (full : machine.limit ≤ machine.calls.length)
    {word : Prelude.Derived} {line : String} (isIn : word.IsIn line.toList) (loaded : Machine) :
    Prelude.load line machine ≠ .ok () loaded := by
  obtain ⟨tokens, body, lexed, -, defines⟩ := isIn.defines
  obtain ⟨fault, last, ran⟩ := runSource_defines_of_full orderly defining full lexed defines
  rw [Prelude.load, bind_apply, ran]
  nofun

/-- Only a limit that leaves room for a call lets a machine be made: the first line of the prelude
calls `define`. -/
theorem room_of_bootstrapped {limit : Nat} {host : Host} {machine : Machine}
    (made : bootstrapped limit host = .ok machine) : 0 < limit := by
  refine Nat.pos_of_ne_zero fun none => ?_
  obtain ⟨orderly, -, binds⟩ := words_builtIn limit host
  have full : (builtIn limit host).limit ≤ (builtIn limit host).calls.length := Nat.le_of_eq none
  obtain ⟨word, line, rest, lines, isIn⟩ : ∃ (word : Prelude.Derived) (line : String)
      (rest : List String), Prelude.definitions = line :: rest ∧ word.IsIn line.toList :=
    match Prelude.definitions, Prelude.Derived.isIn_definitions with
    | _, .cons isIn _ => ⟨_, _, _, rfl, isIn⟩
  obtain ⟨loaded, run, -⟩ := exists_loaded made
  rw [lines] at run
  replace run : (Prelude.load line >>= fun _ => rest.forM Prelude.load) (builtIn limit host) =
    .ok () loaded := run
  rw [bind_apply] at run
  cases first : Prelude.load line (builtIn limit host) with
  | error fault stopped => simp [first] at run
  | ok value last => exact load_ne_ok_of_full orderly (binds .define) full isIn last first

/-- A machine that was made has the words of the language, and is ready to define others. -/
theorem ready_of_bootstrapped {limit : Nat} {host : Host} {machine : Machine}
    (made : bootstrapped limit host = .ok machine) : machine.Ready := by
  obtain ⟨machine', made', ready⟩ := exists_bootstrapped (room_of_bootstrapped made) host
  obtain rfl := Except.ok.inj (made.symm.trans made')
  exact ready

/-- In a machine that was made, the name of an item of the table means what the item says. -/
theorem exists_bound {limit : Nat} {host : Host} {machine : Machine}
    (made : bootstrapped limit host = .ok machine) {item : Prelude.Item} {name : String}
    (named : item.name? = some name) :
    ∃ word, machine.bind name = some word ∧ item.Is (.word word) := by
  obtain ⟨machine', made', -, means⟩ := exists_bootstrapped_means (room_of_bootstrapped made) host
  obtain rfl := Except.ok.inj (made.symm.trans made')
  cases item with
  | primitive primitive =>
      obtain rfl : primitive.name = name := Option.some.inj named
      exact ⟨_, means.primitive primitive, .primitive primitive⟩
  | word word =>
      obtain rfl : word.name = name := Option.some.inj named
      obtain ⟨body, bound, reads⟩ := means.word word (List.mem_reverse.2 word.mem_all)
      exact ⟨_, bound, .word reads⟩
  | literal text => cases named
  | list items => cases named

/-- A name that is no word of the language means nothing yet. -/
theorem Ready.bind_eq_none {machine : Machine} (ready : machine.Ready) {name : String}
    (other : name ∉ Prelude.names) (other' : ∀ primitive : Primitive, name ≠ primitive.name) :
    machine.bind name = none := by
  cases found : machine.bind name with
  | none => rfl
  | some word =>
      rcases ready.known name (by rw [found]; rfl) with mem | ⟨primitive, same⟩
      · exact absurd mem other
      · exact absurd same (other' primitive)

theorem Ready.bind_eq_none_of {machine : Machine} (ready : machine.Ready) {name : String}
    (other : name ∉ Prelude.names) (other' : name ∉ Primitive.all.map Primitive.name) :
    machine.bind name = none :=
  ready.bind_eq_none other fun primitive same =>
    other' (same ▸ List.mem_map_of_mem (Primitive.mem_all primitive))

end Machine

end LiveStack
