import Mathlib.Data.List.Chain
import Mathlib.Data.List.Forall2
import LiveStack.Proofs.Code.Literals
import LiveStack.Proofs.Run.Prelude

/-!
# The dictionary and the handlers stay in step

The dictionary and the store of handlers are two lists of contexts, tied to each other by the
indices in the entries alone. They stay in step: context by context, every entry points to a
handler of the same context, and that handler has the entry's name and kind. Marking, releasing and
defining keep this, and nothing else touches either of them. So an index never dangles and never
finds another word's handler, and the editor's classifier and the reader of code agree about every
token.
-/

namespace LiveStack

open Execution Relation

/-! ## One context -/

namespace Layer

variable {α : Type}

/-- The overall index that follows the layer's last item. -/
def stop (layer : Layer α) : Nat := layer.start + layer.items.size

/-- One layer begins where another one ends. -/
def Follows (newer older : Layer α) : Prop := newer.start = older.stop

end Layer

/-- A layer holds the handler of an entry, under the entry's own name and kind. -/
structure Layer.Holds (layer : Layer Word) (entry : Entry) : Prop where
  begun : layer.start ≤ entry.handler
  found : ∃ word, layer.items[entry.handler - layer.start]? = some word ∧
    word.name = entry.name ∧ word.handler.kind = entry.kind

theorem Layer.Holds.lt_stop {layer : Layer Word} {entry : Entry} (holds : layer.Holds entry) :
    entry.handler < layer.stop := by
  obtain ⟨begun, word, found, -⟩ := holds
  have inside := (Array.getElem?_eq_some_iff.1 found).1
  rw [stop]
  omega

/-- A context of the dictionary is in step with the layer of handlers beside it. -/
def Vocabulary.InStep (vocabulary : Vocabulary) (layer : Layer Word) : Prop :=
  ∀ name entry, (name, entry) ∈ vocabulary →
    entry.name = name ∧ nameProblem? name = none ∧ layer.Holds entry

namespace Vocabulary

theorem inStep_nil (layer : Layer Word) : InStep [] layer := by
  intro name entry mem
  cases mem

/-- A context stays in step when a word is added to it, whether or not the name was there. -/
theorem InStep.insert {vocabulary : Vocabulary} {layer : Layer Word}
    (inStep : vocabulary.InStep layer) {word : Word} {entry : Entry}
    (valid : nameProblem? word.name = none) (name : entry.name = word.name)
    (kind : entry.kind = word.handler.kind) (handler : entry.handler = layer.stop) :
    (vocabulary.insert word.name entry).InStep ⟨layer.start, layer.items.push word⟩ := by
  intro other found mem
  rcases List.mem_cons.1 mem with same | old
  · cases same
    refine ⟨name, valid, by simp [handler, Layer.stop], word, ?_, name.symm, kind.symm⟩
    simp [handler, Layer.stop]
  · obtain ⟨named, passed, holds⟩ := inStep other found (List.mem_filter.1 old).1
    have inside := holds.lt_stop
    obtain ⟨begun, word', kept, alike⟩ := holds
    refine ⟨named, passed, begun, word', ?_, alike⟩
    rw [Layer.stop] at inside
    show (layer.items.push word)[found.handler - layer.start]? = some word'
    rw [Array.getElem?_push_lt (by omega), ← kept, Array.getElem?_eq_getElem]

theorem mem_of_get? {vocabulary : Vocabulary} {name : String} {entry : Entry}
    (found : vocabulary.get? name = some entry) : (name, entry) ∈ vocabulary := by
  induction vocabulary with
  | nil => cases found
  | cons item rest ih =>
      obtain ⟨key, held⟩ := item
      rw [get?, List.lookup_cons] at found
      split at found
      · next same =>
          cases found
          rw [eq_of_beq same]
          exact List.mem_cons_self
      · exact List.mem_cons_of_mem _ (ih found)

end Vocabulary

/-! ## All contexts -/

theorem Dictionary.exists_mem_of_get? {dictionary : Dictionary} {name : String} {entry : Entry}
    (found : dictionary.get? name = some entry) :
    ∃ vocabulary ∈ dictionary.contexts, (name, entry) ∈ vocabulary := by
  obtain ⟨vocabulary, mem, here⟩ := List.exists_of_findSome?_eq_some found
  exact ⟨vocabulary, mem, Vocabulary.mem_of_get? here⟩

namespace Layers

variable {α : Type}

/-- The layers, newest first. -/
def contexts (layers : Layers α) : List (Layer α) := layers.newest :: layers.older

/-- No index belongs to two layers. -/
def Stacked (layers : Layers α) : Prop := layers.contexts.IsChain Layer.Follows

theorem stop_le_of_isChain {newest : Layer α} {older : List (Layer α)}
    (chain : (newest :: older).IsChain Layer.Follows) {layer : Layer α} (mem : layer ∈ older) :
    layer.stop ≤ newest.start := by
  induction older generalizing newest with
  | nil => cases mem
  | cons next rest ih =>
      obtain ⟨follows, chain⟩ := List.isChain_cons_cons.1 chain
      rw [Layer.Follows] at follows
      rcases List.mem_cons.1 mem with rfl | mem
      · exact Nat.le_of_eq follows.symm
      · have below := ih chain mem
        rw [Layer.stop] at follows
        omega

/-- An index finds the layer that it lies in. -/
theorem find?_of_isChain {layers : List (Layer α)} (chain : layers.IsChain Layer.Follows)
    {layer : Layer α} (mem : layer ∈ layers) {index : Nat} (begun : layer.start ≤ index)
    (inside : index < layer.stop) : layers.find? (·.start ≤ index) = some layer := by
  induction layers with
  | nil => cases mem
  | cons newest older ih =>
      rcases List.mem_cons.1 mem with rfl | mem
      · rw [List.find?_cons_of_pos (by simpa using begun)]
      · have above := stop_le_of_isChain chain mem
        rw [List.find?_cons_of_neg (by simp only [decide_eq_true_eq]; omega)]
        exact ih chain.tail mem

theorem Stacked.get?_of_mem {layers : Layers α} (stacked : layers.Stacked) {layer : Layer α}
    (mem : layer ∈ layers.contexts) {index : Nat} (begun : layer.start ≤ index)
    (inside : index < layer.stop) : layers.get? index = layer.items[index - layer.start]? := by
  have found : layers.contexts.find? (·.start ≤ index) = some layer :=
    find?_of_isChain stacked mem begun inside
  rw [contexts] at found
  rw [get?, found]
  rfl

theorem Stacked.stop_le_size {layers : Layers α} (stacked : layers.Stacked) {layer : Layer α}
    (mem : layer ∈ layers.contexts) : layer.stop ≤ layers.size := by
  rcases List.mem_cons.1 mem with rfl | mem
  · exact Nat.le_refl _
  · have below := stop_le_of_isChain stacked mem
    rw [size]
    omega

theorem Stacked.push {layers : Layers α} (stacked : layers.Stacked) (item : α) :
    (layers.push item).Stacked := by
  obtain ⟨newest, older⟩ := layers
  cases older with
  | nil => exact .singleton _
  | cons next rest =>
      obtain ⟨follows, chain⟩ := List.isChain_cons_cons.1 stacked
      exact List.isChain_cons_cons.2 ⟨follows, chain⟩

end Layers

namespace Machine

/-- The dictionary and the handlers have the same contexts, each in step with the other. -/
structure InStep (machine : Machine) : Prop where
  stacked : machine.handlers.Stacked
  contexts : List.Forall₂ Vocabulary.InStep machine.dictionary.contexts machine.handlers.contexts

namespace InStep

variable {machine : Machine}

theorem depth_eq (inStep : machine.InStep) :
    machine.dictionary.depth = machine.handlers.depth :=
  inStep.contexts.length_eq

/-- An entry leads to the handler it was made for. -/
theorem get?_handler (inStep : machine.InStep) {name : String} {entry : Entry}
    (found : machine.dictionary.get? name = some entry) :
    nameProblem? name = none ∧ entry.handler < machine.handlers.size ∧
      ∃ word, machine.handlers.get? entry.handler = some word ∧
        word.name = name ∧ word.handler.kind = entry.kind := by
  obtain ⟨vocabulary, mem, here⟩ := Dictionary.exists_mem_of_get? found
  obtain ⟨position, bound, rfl⟩ := List.getElem_of_mem mem
  have bound' : position < machine.handlers.contexts.length := inStep.contexts.length_eq ▸ bound
  obtain ⟨named, valid, holds⟩ := inStep.contexts.get bound bound' name entry here
  have inside := holds.lt_stop
  have held := List.getElem_mem bound'
  obtain ⟨begun, word, stored, called, kind⟩ := holds
  refine ⟨valid, Nat.lt_of_lt_of_le inside (inStep.stacked.stop_le_size held), word, ?_, ?_, kind⟩
  · rw [inStep.stacked.get?_of_mem held begun inside]
    exact stored
  · rw [called, named]

theorem orderly (inStep : machine.InStep) : machine.Orderly := by
  constructor
  · intro name quoted
    cases found : machine.dictionary.get? name with
    | none => rfl
    | some entry => exact absurd quoted (unquoted_of_valid (inStep.get?_handler found).1)
  · intro name entry found
    exact (inStep.get?_handler found).2.1

/-! ## What keeps the contexts in step -/

theorem mark (inStep : machine.InStep) : machine.mark.InStep :=
  ⟨List.isChain_cons_cons.2 ⟨rfl, inStep.stacked⟩,
    .cons (Vocabulary.inStep_nil _) inStep.contexts⟩

/-- Either both root contexts are kept, or both newest contexts go. The handlers alone never
refuse. -/
theorem release (inStep : machine.InStep) :
    (machine.dictionary.depth = 1 ∧ machine.release = .error .dictionary) ∨
      ∃ released, machine.release = .ok released ∧ released.InStep := by
  obtain ⟨host, limit, stack, location, calls, ⟨newest, older⟩, ⟨newest', older'⟩,
    diagnostics⟩ := machine
  obtain ⟨stacked, contexts⟩ := inStep
  obtain ⟨-, below⟩ := List.forall₂_cons.1 contexts
  cases below with
  | nil => exact .inl ⟨rfl, rfl⟩
  | cons top below =>
      exact .inr ⟨_, rfl, (List.isChain_cons_cons.1 stacked).2, .cons top below⟩

theorem reset (inStep : machine.InStep) :
    (machine.dictionary.depth = 1 ∧ machine.reset = .error .dictionary) ∨
      ∃ fresh, machine.reset = .ok fresh ∧ fresh.InStep := by
  rcases inStep.release with ⟨root, refused⟩ | ⟨released, done, kept⟩
  · refine .inl ⟨root, ?_⟩
    rw [Machine.reset, refused]
    rfl
  · have cleared : InStep { released with
        stack := [], calls := [], location := none, diagnostics := [] } := ⟨kept.1, kept.2⟩
    refine .inr ⟨_, ?_, cleared.mark⟩
    rw [Machine.reset, done]
    rfl

theorem addWord (inStep : machine.InStep) (location : Option Location) {word : Word}
    (description signature : String) (valid : nameProblem? word.name = none) :
    (machine.addWord location word description signature).InStep := by
  obtain ⟨newest, older⟩ := List.forall₂_cons.1 inStep.contexts
  exact ⟨inStep.stacked.push word, .cons (newest.insert valid rfl rfl rfl) older⟩

end InStep

theorem Becomes.inStep {first last : Machine} (becomes : Becomes first last)
    (inStep : first.InStep) : last.InStep := by
  refine becomes.keeps InStep ?_ inStep
  intro first second change holds
  cases change with
  | define name body valid => exact holds.addWord _ _ _ valid
  | _ => exact ⟨holds.stacked, holds.contexts⟩

/-! ## New machines -/

theorem inStep_new (limit : Nat) (host : Host) : (new limit host).InStep :=
  InStep.mark ⟨.singleton _, .cons (Vocabulary.inStep_nil _) .nil⟩

theorem nameProblem?_name (primitive : Primitive) : nameProblem? primitive.name = none := by
  cases primitive with
  | operation op => cases op <;> decide
  | _ => decide

theorem InStep.foldl_addPrimitive {machine : Machine} (inStep : machine.InStep)
    (primitives : List Primitive) : (primitives.foldl addPrimitive machine).InStep := by
  induction primitives generalizing machine with
  | nil => exact inStep
  | cons primitive rest ih => exact ih (inStep.addWord _ _ _ (nameProblem?_name primitive))

theorem inStep_builtIn (limit : Nat) (host : Host) : (builtIn limit host).InStep :=
  (inStep_new limit host).foldl_addPrimitive Primitive.all

/-! ## Loading the prelude -/

section
variable {property : Machine → Prop}
  (keeps : ∀ machine name source, property machine →
    property (final (Machine.runSource name source machine)))
include keeps

theorem keeps_load (line : String) {machine : Machine} (holds : property machine) :
    property (final (Prelude.load line machine)) := by
  have kept := keeps machine Prelude.sourceName line holds
  rw [Prelude.load, bind_apply]
  cases ran : Machine.runSource Prelude.sourceName line machine with
  | error fault stopped => rwa [ran] at kept
  | ok value loaded =>
      rw [ran] at kept
      simp only [bind_apply, get_apply]
      cases loaded.diagnostics <;> exact kept

/-- What every run of a text keeps holds after the lines of the prelude. -/
theorem keeps_forM_load (lines : List String) {machine : Machine} (holds : property machine) :
    property (final (lines.forM Prelude.load machine)) := by
  induction lines generalizing machine with
  | nil => exact holds
  | cons line rest ih =>
      have kept := keeps_load keeps line holds
      show property (final ((Prelude.load line >>= fun _ => rest.forM Prelude.load) machine))
      rw [bind_apply]
      cases ran : Prelude.load line machine with
      | error fault stopped => rwa [ran] at kept
      | ok value loaded =>
          rw [ran] at kept
          exact ih kept

end

theorem inStep_bootstrapped {limit : Nat} {host : Host} {machine : Machine}
    (made : bootstrapped limit host = .ok machine) : machine.InStep := by
  obtain ⟨loaded, run, rfl⟩ := exists_loaded made
  have runs : ∀ machine name source, InStep machine →
      InStep (final (Machine.runSource name source machine)) := fun machine name source inStep =>
    (becomes_runSource machine name source).inStep inStep
  have kept := keeps_forM_load runs Prelude.definitions (inStep_builtIn limit host)
  rw [run] at kept
  obtain ⟨stacked, contexts⟩ := kept
  exact InStep.mark ⟨stacked, contexts⟩

/-! ## Meanings -/

/-- A name has a meaning exactly if the dictionary has it. -/
theorem InStep.bind_isSome {machine : Machine} (inStep : machine.InStep) (name : String) :
    (machine.bind name).isSome = machine.dictionary.contains name := by
  rw [bind, Dictionary.contains]
  cases found : machine.dictionary.get? name with
  | none => rfl
  | some entry =>
      obtain ⟨-, -, word, held, -⟩ := inStep.get?_handler found
      show (machine.handlers.get? entry.handler).isSome = true
      rw [held]
      rfl

end Machine

/-- The class of the token that an element was read from. A list is read from no single token. -/
def Element.class? : Element → Option TokenClass
  | .word bound => some (.ofKind bound.handler.kind)
  | .literal _ (.string _) => some .string
  | .literal _ (.bool _) => some .boolean
  | .literal _ (.int _) | .literal _ (.float _) => some .number
  | .literal _ (.list _) | .quote _ => none
  | .unknown _ => some .unknown

namespace Literal

/-- No token reads as a list. -/
theorem read?_ne_list {token : String} {code : Code} : read? token ≠ some (.list code) := by
  intro read
  rw [read?] at read
  split at read
  · cases read
  split at read
  · cases read
  split at read
  · cases read
  cases isNumeric_of_readNumber? read

end Literal

theorem Element.class?_ofToken_of_unbound {binding : Binding} {token : String}
    (unbound : binding token = none) :
    (Element.ofToken binding token).class? = some (.ofLiteral token) := by
  rw [Element.ofToken, unbound, TokenClass.ofLiteral]
  cases read : Literal.read? token with
  | none => rfl
  | some value =>
      cases value with
      | list code => exact absurd read Literal.read?_ne_list
      | _ => rfl

namespace Machine

/-- A token that means nothing as a word is classified as a literal. -/
theorem InStep.classify_of_unbound {machine : Machine} (inStep : machine.InStep) {token : String}
    (unbound : machine.bind token = none) :
    machine.dictionary.classify token = .ofLiteral token := by
  have missed := inStep.bind_isSome token
  rw [unbound, Dictionary.contains] at missed
  rw [Dictionary.classify]
  cases found : machine.dictionary.get? token with
  | none => rfl
  | some entry => simp [found] at missed

/-- The editor's classifier and the reader of code agree about every token. -/
theorem InStep.class?_ofToken {machine : Machine} (inStep : machine.InStep) (token : String) :
    (Element.ofToken machine.bind token).class? = some (machine.dictionary.classify token) := by
  rw [Dictionary.classify]
  cases found : machine.dictionary.get? token with
  | none => exact Element.class?_ofToken_of_unbound (by rw [bind, found]; rfl)
  | some entry =>
      obtain ⟨-, -, word, held, -, kind⟩ := inStep.get?_handler found
      have bound : machine.bind token = some word := by
        rw [bind, found]
        exact held
      rw [Element.ofToken, bound]
      show some (TokenClass.ofKind word.handler.kind) = some (.ofKind entry.kind)
      rw [kind]

/-! ## Machines that come about -/

/-- What can be done with a machine from outside. -/
inductive Action where
  | source (name text : String)
  | code (code : Code)
  | call (site : Location) (word : Word)
  | reset
  | mark
  | release
  | push (value : Value)
  | pop
  | clear

/-- The machine after an action. What is refused changes nothing. -/
def Action.perform (machine : Machine) : Action → Machine
  | .source name text => ((Machine.runSource name text).attempt machine).2
  | .code body => ((Machine.runCode body).attempt machine).2
  | .call site word => ((Machine.call site word).attempt machine).2
  | .reset => machine.reset.toOption.getD machine
  | .mark => machine.mark
  | .release => machine.release.toOption.getD machine
  | .push value => ((Run.push value).attempt machine).2
  | .pop => (Run.pop.attempt machine).2
  | .clear => { machine with stack := [] }

/-- The machines that come about from a new one, with the words of the language or without. -/
inductive Reached (limit : Nat) (host : Host) : Machine → Prop
  | new : Reached limit host (new limit host)
  | bootstrapped {machine : Machine} (made : bootstrapped limit host = .ok machine) :
      Reached limit host machine
  | perform {machine : Machine} (reached : Reached limit host machine) (action : Action) :
      Reached limit host (action.perform machine)

theorem InStep.perform {machine : Machine} (inStep : machine.InStep) (action : Action) :
    (action.perform machine).InStep := by
  cases action with
  | source name text =>
      rw [Action.perform, attempt_snd]
      exact (becomes_runSource machine name text).inStep inStep
  | code code =>
      rw [Action.perform, attempt_snd]
      exact (becomes_runCode machine code).inStep inStep
  | call site word =>
      rw [Action.perform, attempt_snd]
      exact (becomes_call machine site word).inStep inStep
  | reset =>
      rw [Action.perform]
      rcases inStep.reset with ⟨-, refused⟩ | ⟨fresh, done, kept⟩
      · rw [refused]
        exact inStep
      · rw [done]
        exact kept
  | mark => exact inStep.mark
  | release =>
      rw [Action.perform]
      rcases inStep.release with ⟨-, refused⟩ | ⟨released, done, kept⟩
      · rw [refused]
        exact inStep
      · rw [done]
        exact kept
  | push value => exact ⟨inStep.stacked, inStep.contexts⟩
  | pop =>
      rw [Action.perform, attempt_snd, pop_apply]
      cases top machine <;> exact ⟨inStep.stacked, inStep.contexts⟩
  | clear => exact ⟨inStep.stacked, inStep.contexts⟩

theorem Reached.inStep {limit : Nat} {host : Host} {machine : Machine}
    (reached : Reached limit host machine) : machine.InStep := by
  induction reached with
  | new => exact inStep_new limit host
  | bootstrapped made => exact inStep_bootstrapped made
  | perform reached action ih => exact ih.perform action

/-- The dictionary and the handlers are in step in every machine that comes about. They have as
many contexts, and a release or a reset that is refused is refused by the dictionary, at its root.
Every entry has its own valid name, and its index lies in the layer beside its context, where the
handler has the entry's name and kind; the store as a whole finds that same handler. Hence a name
has a meaning exactly if the dictionary has it, and a token is of a class exactly if it reads as an
element of that class. -/
theorem contexts_in_step {limit : Nat} {host : Host} {machine : Machine}
    (reached : Reached limit host machine) :
    machine.dictionary.depth = machine.handlers.depth ∧
    (∀ reason, machine.release = .error reason ∨ machine.reset = .error reason →
      reason = .dictionary ∧ machine.dictionary.depth = 1) ∧
    (∀ (position : Nat) (vocabulary : Vocabulary) (layer : Layer Word),
      machine.dictionary.contexts[position]? = some vocabulary →
      machine.handlers.contexts[position]? = some layer →
      ∀ name entry, (name, entry) ∈ vocabulary →
        entry.name = name ∧ nameProblem? name = none ∧
        layer.start ≤ entry.handler ∧ entry.handler < layer.start + layer.items.size ∧
        ∃ word, layer.items[entry.handler - layer.start]? = some word ∧
          machine.handlers.get? entry.handler = some word ∧
          word.name = name ∧ word.handler.kind = entry.kind) ∧
    (∀ token, (machine.bind token).isSome = machine.dictionary.contains token) ∧
    (∀ token found, machine.dictionary.classify token = found ↔
      (Element.ofToken machine.bind token).class? = some found) := by
  have inStep := reached.inStep
  refine ⟨inStep.depth_eq, ?_, ?_, inStep.bind_isSome, ?_⟩
  · rintro reason (refused | refused)
    · rcases inStep.release with ⟨root, known⟩ | ⟨released, done, -⟩
      · exact ⟨Except.error.inj (refused.symm.trans known), root⟩
      · cases refused.symm.trans done
    · rcases inStep.reset with ⟨root, known⟩ | ⟨fresh, done, -⟩
      · exact ⟨Except.error.inj (refused.symm.trans known), root⟩
      · cases refused.symm.trans done
  · intro position vocabulary layer here beside name entry mem
    obtain ⟨bound, rfl⟩ := List.getElem?_eq_some_iff.1 here
    obtain ⟨bound', rfl⟩ := List.getElem?_eq_some_iff.1 beside
    obtain ⟨named, valid, holds⟩ := inStep.contexts.get bound bound' name entry mem
    -- The index of the entry lies between the ends of the layer beside its context.
    have inside := holds.lt_stop
    obtain ⟨begun, word, stored, called, kind⟩ := holds
    refine ⟨named, valid, begun, inside, word, stored, ?_, called.trans named, kind⟩
    rw [← stored]
    exact inStep.stacked.get?_of_mem (List.getElem_mem bound') begun inside
  · intro token found
    rw [inStep.class?_ofToken, Option.some.injEq]

/-- The built-in word `dup` is hidden by a definition in a newer context. Its name is then of the
class of its new meaning, not of the handler that is still stored for the old one. -/
theorem contexts_in_step_of_hidden :
    ∃ machine : Machine, Reached 50 .empty machine ∧
      machine.bind "dup" = some ⟨"dup", .secondary []⟩ ∧
      machine.dictionary.contains "dup" = true ∧
      machine.dictionary.classify "dup" = .secondary := by
  obtain ⟨start, made, ready⟩ := exists_bootstrapped (show 0 < 50 by decide) .empty
  obtain ⟨tokens, lexed, defines⟩ : ∃ tokens,
      Token.ofSource "<line>" "[ ] \"dup\" define" = (tokens, []) ∧
        Token.Defines tokens [] "dup" :=
    ⟨[⟨.opening, ⟨"<line>", 1, 1⟩⟩, ⟨.closing, ⟨"<line>", 1, 3⟩⟩,
        ⟨.string "\"dup\"", ⟨"<line>", 1, 5⟩⟩, ⟨.word "define", ⟨"<line>", 1, 11⟩⟩],
      by decide, ⟨⟨_, _, _, _, _, rfl, by decide⟩, by decide, by decide⟩⟩
  obtain ⟨place, run⟩ := runSource_defines ready.orderly ready.defining
    (by rw [ready.idle]; exact ready.room) lexed defines
  have reached : Reached 50 .empty (Action.perform start (.source "<line>" "[ ] \"dup\" define")) :=
    .perform (.bootstrapped made) _
  have bound : (Action.perform start (.source "<line>" "[ ] \"dup\" define")).bind "dup" =
      some ⟨"dup", .secondary []⟩ := by
    rw [Action.perform, attempt_snd, run]
    have orderly : Orderly { start with location := some place } :=
      ⟨ready.orderly.1, ready.orderly.2⟩
    exact bind_define orderly "dup" [] "dup"
  obtain ⟨-, -, -, known, classes⟩ := contexts_in_step reached
  refine ⟨_, reached, bound, ?_, (classes "dup" .secondary).2 ?_⟩
  · rw [← known, bound]
    rfl
  · rw [Element.ofToken, bound]
    rfl

end Machine

end LiveStack
